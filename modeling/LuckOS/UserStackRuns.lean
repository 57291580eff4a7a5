import LuckOS.UserStacks

/-!
# Runs of the operations on user stacks

Every step changes the threads of one process. In runs in which no thread that `process_exec` leaves
behind shares its stack with another one, the bitmap of a process is that of the stacks of its threads
whenever no operation on the process is in progress.
-/

namespace LuckOS

open Function Runs

namespace UserStacks

variable {s s' : UserStacks} {a : Action} {t u p p' n : Nat} {pc back : StackPc} {exec : Bool}

def view (s : UserStacks) (p : Nat) : View := fun t =>
  if s.process t = some p ∧ s.freed t = false then some (s.pc t, s.userStackIndex t) else none

/-- Every process has a table and a bitmap that hold its threads. Threads that are not yet created are in no process. -/
structure Inv (s : UserStacks) : Prop where
  holds : ∀ {p}, p < s.processesNum → (s.view p).Holds (s.exited p) (s.threads p) (s.userThreadStackIndexes p)
  process_lt : ∀ {t p}, s.process t = some p → p < s.processesNum
  unborn : ∀ {t}, s.threadsNum ≤ t → s.process t = none

theorem Inv.lt_threadsNum (h : Inv s) (ht : s.process t = some p) : t < s.threadsNum := by
  by_contra hle
  rw [h.unborn (Nat.le_of_not_lt hle)] at ht
  cases ht

theorem view_self (ht : s.process t = some p) (hfree : s.freed t = false) :
    s.view p t = some (s.pc t, s.userStackIndex t) := if_pos ⟨ht, hfree⟩

/-- A step on one process keeps what holds of the others. -/
theorem Inv.of_process (h : Inv s) (hp : p < s.processesNum) (hnum : s'.processesNum = s.processesNum)
    {v : View} {exited : Bool} {table : HashTable Nat} {b : Bitmap} (hheld : v.Holds exited table b)
    (hself : s'.view p = v ∧ s'.exited p = exited ∧ s'.threads p = table ∧ s'.userThreadStackIndexes p = b)
    (hothers : ∀ p', p' ≠ p → s'.view p' = s.view p' ∧ s'.exited p' = s.exited p' ∧ s'.threads p' = s.threads p' ∧
      s'.userThreadStackIndexes p' = s.userThreadStackIndexes p')
    (hprocess : ∀ t q, s'.process t = some q → s.process t = some q ∨ q = p)
    (hunborn : ∀ t, s'.threadsNum ≤ t → s'.process t = none) : Inv s' where
  holds := by
    intro p' hp'
    by_cases hne : p' = p
    · obtain ⟨hview, hexited, hthreads, hindexes⟩ := hself
      rw [hne, hview, hexited, hthreads, hindexes]
      exact hheld
    · obtain ⟨hview, hexited, hthreads, hindexes⟩ := hothers p' hne
      rw [hview, hexited, hthreads, hindexes]
      exact h.holds (hnum ▸ hp')
  process_lt := by
    intro t q ht
    rw [hnum]
    rcases hprocess t q ht with ht | rfl
    · exact h.process_lt ht
    · exact hp
  unborn := hunborn _

theorem view_goto (ht : s.process t = some p) (hfree : s.freed t = false) (pc : StackPc) :
    (s.goto t pc).view p = update (s.view p) t (some (pc, s.userStackIndex t)) := by
  funext u
  simp only [view, UserStacks.goto]
  grind [view]

theorem view_goto_of_ne (ht : s.process t = some p) (hne : p' ≠ p) (pc : StackPc) :
    (s.goto t pc).view p' = s.view p' := by
  funext u
  simp only [view, UserStacks.goto]
  grind [view]

/-- A thread goes on, without a change of the table and of the bitmap. -/
theorem Inv.goto (h : Inv s) (ht : s.process t = some p) (hfree : s.freed t = false) {pc' : StackPc}
    (hlisted : pc'.listed = (s.pc t).listed) (hstale : pc'.stale = (s.pc t).stale) (hinit : s.pc t ≠ .execInit)
    (hinit' : pc' ≠ .execInit) (hfresh : s.pc t ≠ .fresh) (hnew : pc'.new = none)
    (htearing : pc'.tearing = true → ∀ u, u ≠ t → s.process u = some p → s.freed u = false → (s.pc u).tearing = false) :
    Inv (s.goto t pc') := by
  have hp := h.process_lt ht
  refine h.of_process hp rfl ?_ ⟨view_goto ht hfree pc', rfl, rfl, rfl⟩
    (fun p' hne => ⟨view_goto_of_ne ht hne pc', rfl, rfl, rfl⟩) (fun _ _ => .inl) (fun u hu => h.unborn hu)
  refine (h.holds hp).goto (view_self ht hfree) hlisted hstale hinit hinit' hfresh hnew fun htear u pc j hne hu => ?_
  rw [view] at hu
  split_ifs at hu with hin
  obtain ⟨rfl, -⟩ := Prod.mk.inj (Option.some.inj hu)
  exact htearing htear u hne hin.1 hin.2

/-- A thread that is not in `process_exec` leaves the bitmap alone. -/
theorem not_clearing (h : Inv s) (ht : s.process t = some p) (hfree : s.freed t = false) (hpc : s.pc t ≠ .execInit) :
    ¬ (s.view p).Clearing := by
  rintro ⟨u, j, hu⟩
  have hut := (h.holds (h.process_lt ht)).alone hu (view_self ht hfree)
  rw [← hut, view_self ht hfree] at hu
  exact hpc (Prod.mk.inj (Option.some.inj hu)).1

/-- The stack of a running thread is in the bitmap. -/
theorem index_lt (h : Inv s) (ht : s.process t = some p) (hfree : s.freed t = false) (hpc : s.pc t = .running)
    (hindex : 0 ≤ s.userStackIndex t) : (s.userStackIndex t).toNat < 4096 := by
  have hheld := h.holds (h.process_lt ht)
  have howns : (s.view p).Owns t (s.userStackIndex t).toNat :=
    ⟨.running, by rw [view_self ht hfree, hpc, Int.toNat_of_nonneg hindex], rfl⟩
  have hclearing := not_clearing h ht hfree (by rw [hpc]; nofun)
  have hlt := Bitmap.lt_of_testBit (hheld.used hclearing howns)
  rw [(Prod.mk.inj hheld.sizes).2] at hlt
  exact hlt

theorem testBit_create (k : Nat) : (Bitmap.create none userProcessThreadsMax).testBit k = false := by
  by_contra hk
  rw [Bool.not_eq_false] at hk
  have hlength : (Bitmap.create none userProcessThreadsMax).array.length = 128 := rfl
  have hmax : userProcessThreadsMax = 4096 := rfl
  have hbound := Bitmap.lt_of_testBit hk
  have hword : k / 32 < userProcessThreadsMax / 32 := by omega
  exact Bool.noConfusion (hk.symm.trans (Bitmap.testBit_init none userProcessThreadsMax hword))

/-- The bitmap of a new process. -/
theorem forked_bits {j : Int} (hj : 0 ≤ j) (hlt : j.toNat < 4096) (k : Nat) :
    ((Bitmap.create none userProcessThreadsMax).setBit j.toNat).testBit k = decide ((k : Int) = j) := by
  have hlength : (Bitmap.create none userProcessThreadsMax).array.length = 128 := rfl
  have hiff : k = j.toNat ↔ (k : Int) = j := by omega
  rw [Bitmap.testBit_setBit _ (by omega), testBit_create, Bool.or_false, decide_eq_decide.mpr hiff]

/-- `process_fork` creates a process, and the others stay as they are. -/
theorem Inv.processFork (h : Inv s) (ht : s.process t = some p) (hfree : s.freed t = false) (hpc : s.pc t = .running)
    (hfork : s.processFork t = some s') : Inv s' := by
  rw [UserStacks.processFork] at hfork
  split_ifs at hfork with hindex
  have hlt := index_lt h ht hfree hpc hindex
  have hunborn := h.unborn (Nat.le_refl s.threadsNum)
  have hprocess : ∀ u, s.process u ≠ some s.processesNum := fun u hu => Nat.lt_irrefl _ (h.process_lt hu)
  obtain rfl := Option.some.inj hfork
  constructor
  case holds =>
    intro p' hp'
    by_cases hne : p' = s.processesNum
    · subst hne
      have hforked : View.Holds (update (fun _ => none) s.threadsNum (some (.running, s.userStackIndex t))) false
          (HashTable.init.put s.threadsNum s.threadsNum).2
          ((Bitmap.create none userProcessThreadsMax).setBit (s.userStackIndex t).toNat) :=
        View.holds_fork (by rw [Bitmap.sizes_setBit]; rfl) (forked_bits hindex hlt)
      convert hforked using 1
      · funext u
        simp only [view]
        grind [view]
      · exact update_self ..
      · exact update_self ..
      · exact update_self ..
    · have hold := h.holds (Nat.lt_of_le_of_ne (Nat.le_of_lt_succ hp') hne)
      convert hold using 1
      · funext u
        simp only [view]
        grind [view]
      · exact update_of_ne hne ..
      · exact update_of_ne hne ..
      · exact update_of_ne hne ..
  case process_lt =>
    intro u q hu
    have := @h.process_lt u q
    grind
  case unborn =>
    intro u hu
    have := @h.unborn u
    grind

/-- A thread is created in the process of its creator. -/
theorem Inv.createThread (h : Inv s) (ht : s.process t = some p) (hfree : s.freed t = false) (hpc : s.pc t = .put exec) :
    Inv (s.createThread t p exec) := by
  have hp := h.process_lt ht
  have hunborn := h.unborn (Nat.le_refl s.threadsNum)
  have hnone : s.view p s.threadsNum = none := if_neg fun hin => by simp [hunborn] at hin
  have hheld := (h.holds hp).put (by rw [view_self ht hfree, hpc]) hnone
  refine h.of_process hp rfl hheld ⟨?_, rfl, update_self .., rfl⟩ (fun p' hne => ⟨?_, rfl, update_of_ne hne .., rfl⟩) ?_ ?_
  · funext u
    simp only [view, UserStacks.createThread]
    grind [view]
  · funext u
    simp only [view, UserStacks.createThread]
    grind [view]
  · intro u q hu
    simp only [UserStacks.createThread] at hu ⊢
    grind
  · intro u hu
    have := @h.unborn u
    simp only [UserStacks.createThread] at hu ⊢
    grind

/-- A stack is allocated, or the bitmap is full and the new thread is not scheduled. -/
theorem Inv.allocateStack (h : Inv s) (ht : s.process t = some p) (hfree : s.freed t = false)
    (hpc : s.pc t = .allocate exec n) (hstep : s.allocateStack t p exec n = some s') : Inv s' := by
  have hp := h.process_lt ht
  have htv : s.view p t = some (.allocate exec n, s.userStackIndex t) := by rw [view_self ht hfree, hpc]
  have hn := (h.holds hp).without htv
  have hnp : s.process n = some p ∧ s.freed n = false ∧ s.pc n = .fresh := by
    rw [view] at hn
    split_ifs at hn with hin
    exact ⟨hin.1, hin.2, (Prod.mk.inj (Option.some.inj hn)).1⟩
  rw [UserStacks.allocateStack] at hstep
  split at hstep
  next hfull =>
    cases exec with
    | true => cases hstep
    | false =>
      obtain rfl := Option.some.inj hstep
      apply h.goto ht hfree
      all_goals simp [hpc, StackPc.listed, StackPc.stale, StackPc.new, StackPc.tearing]
  next i b hfirst =>
    obtain rfl := Option.some.inj hstep
    refine h.of_process hp rfl ((h.holds hp).allocate htv hfirst) ⟨?_, rfl, rfl, update_self ..⟩
      (fun p' hne => ⟨?_, rfl, rfl, update_of_ne hne ..⟩) (fun _ _ => .inl) (fun u hu => h.unborn hu)
    · funext u
      simp only [view, UserStacks.goto]
      grind [view]
    · funext u
      simp only [view, UserStacks.goto]
      grind [view]

theorem Inv.schedule (h : Inv s) (ht : s.process t = some p) (hfree : s.freed t = false) (hpc : s.pc t = .schedule exec n) :
    Inv ((s.goto n .running).goto t (if exec then .detach true else .running)) := by
  have hp := h.process_lt ht
  obtain ⟨j, hn, hheld⟩ := (h.holds hp).schedule (by rw [view_self ht hfree, hpc])
  have hnp : s.process n = some p ∧ s.freed n = false ∧ s.userStackIndex n = j := by
    rw [view] at hn
    split_ifs at hn with hin
    exact ⟨hin.1, hin.2, (Prod.mk.inj (Option.some.inj hn)).2⟩
  refine h.of_process hp rfl hheld ⟨?_, rfl, rfl, rfl⟩ (fun p' hne => ⟨?_, rfl, rfl, rfl⟩) (fun _ _ => .inl)
    (fun u hu => h.unborn hu)
  · funext u
    simp only [view, UserStacks.goto]
    grind [view]
  · funext u
    simp only [view, UserStacks.goto]
    grind [view]

/-- A step that changes the place of the thread, its table and its bitmap. -/
theorem Inv.advance_place (h : Inv s) (ht : s.process t = some p) (hfree : s.freed t = false) {table : HashTable Nat}
    {b : Bitmap} (hheld : View.Holds (update (s.view p) t (some (pc, s.userStackIndex t))) (s.exited p) table b) :
    Inv { s.goto t pc with
      threads := update s.threads p table, userThreadStackIndexes := update s.userThreadStackIndexes p b } :=
  h.of_process (h.process_lt ht) rfl hheld ⟨view_goto ht hfree pc, rfl, update_self .., update_self ..⟩
    (fun _ hne => ⟨view_goto_of_ne ht hne pc, rfl, update_of_ne hne .., update_of_ne hne ..⟩) (fun _ _ => .inl)
    (fun _ hu => h.unborn hu)

theorem Inv.execRemove (h : Inv s) (ht : s.process t = some p) (hfree : s.freed t = false) (hpc : s.pc t = .execRemove) :
    Inv { s.goto t .execDestroy with threads := update s.threads p ((s.threads p).remove t).2 } := by
  have hheld := (h.holds (h.process_lt ht)).execRemove (by rw [view_self ht hfree, hpc])
  have hsame : update s.userThreadStackIndexes p (s.userThreadStackIndexes p) = s.userThreadStackIndexes := update_eq_self ..
  have hinv := h.advance_place ht hfree hheld
  rw [hsame] at hinv
  exact hinv

theorem Inv.execInit (h : Inv s) (ht : s.process t = some p) (hfree : s.freed t = false) (hpc : s.pc t = .execInit) :
    Inv { s.goto t .loadElf with
      threads := update s.threads p (HashTable.init.put t t).2
      userThreadStackIndexes := update s.userThreadStackIndexes p (s.userThreadStackIndexes p).clear } :=
  h.advance_place ht hfree ((h.holds (h.process_lt ht)).execInit (by rw [view_self ht hfree, hpc]))

theorem Inv.destroyThreads (h : Inv s) (ht : s.process t = some p) (hfree : s.freed t = false) (hpc : s.pc t = .execDestroy) :
    Inv (s.destroyThreads t p) := by
  have hp := h.process_lt ht
  have hold := h.holds hp
  have htv : s.view p t = some (.execDestroy, s.userStackIndex t) := by rw [view_self ht hfree, hpc]
  have hentries : ∀ u, (s.threads p).entries.any (·.2 == u) = true ↔ (s.threads p).get u = some u := by
    intro u
    rw [HashTable.get_eq_some hold.valid, List.any_eq_true]
    constructor
    · rintro ⟨⟨id, w⟩, hmem, heq⟩
      obtain rfl : w = u := by simpa using heq
      obtain ⟨rfl, -⟩ := hold.listed.mp ((HashTable.get_eq_some hold.valid).mpr hmem)
      exact hmem
    · exact fun hmem => ⟨(u, u), hmem, by simp⟩
  have hprocess : ∀ {u}, (s.threads p).get u = some u → s.process u = some p := by
    intro u hu
    obtain ⟨-, pc, j, hv, -⟩ := hold.listed.mp hu
    rw [view] at hv
    split_ifs at hv with hin
    exact hin.1
  have hself : (s.threads p).get t ≠ some t := by
    intro hin
    obtain ⟨-, pc, j, hv, hlisted⟩ := hold.listed.mp hin
    rw [htv] at hv
    cases hv
    cases hlisted
  refine h.of_process hp rfl (hold.execDestroy htv) ⟨?_, rfl, update_self .., rfl⟩
    (fun p' hne => ⟨?_, rfl, update_of_ne hne .., rfl⟩) (fun _ _ => .inl) (fun u hu => h.unborn hu)
  · funext u
    have := hentries u
    simp only [view, UserStacks.goto, UserStacks.destroyThreads]
    grind [view]
  · funext u
    have := hentries u
    have := @hprocess u
    simp only [view, UserStacks.goto, UserStacks.destroyThreads]
    grind [view]

theorem view_leave (s' : UserStacks) (ht : s.process t = some p) (hprocess : s'.process = update s.process t none)
    (hsame : s'.freed = s.freed ∧ s'.pc = s.pc ∧ s'.userStackIndex = s.userStackIndex) :
    s'.view p = update (s.view p) t none ∧ ∀ p', p' ≠ p → s'.view p' = s.view p' := by
  obtain ⟨hfreed, hpc, hindex⟩ := hsame
  constructor
  · funext u
    simp only [view, hprocess, hfreed, hpc, hindex]
    grind [view]
  · intro p' hne
    funext u
    simp only [view, hprocess, hfreed, hpc, hindex]
    grind

/-- A thread leaves its process. -/
theorem Inv.leave (h : Inv s) (ht : s.process t = some p) {exited : Bool} {table : HashTable Nat} {b : Bitmap}
    (hheld : View.Holds (update (s.view p) t none) exited table b) :
    Inv { s with
      process := update s.process t none
      threads := update s.threads p table
      userThreadStackIndexes := update s.userThreadStackIndexes p b
      exited := update s.exited p exited } := by
  obtain ⟨hself, hothers⟩ := view_leave { s with
    process := update s.process t none
    threads := update s.threads p table
    userThreadStackIndexes := update s.userThreadStackIndexes p b
    exited := update s.exited p exited } ht rfl ⟨rfl, rfl, rfl⟩
  refine h.of_process (h.process_lt ht) rfl hheld ⟨hself, update_self .., update_self .., update_self ..⟩
    (fun p' hne => ⟨hothers p' hne, update_of_ne hne .., update_of_ne hne .., update_of_ne hne ..⟩) ?_ ?_
  · intro u q hu
    grind
  · intro u hu
    have := @h.unborn u
    grind

theorem Inv.removeProcessThread (h : Inv s) (ht : s.process t = some p) (hfree : s.freed t = false) (hpc : s.pc t = .detach exec)
    (hother : exec = true → 0 ≤ s.userStackIndex t → ∀ u, u ≠ t → s.process u = some p → s.freed u = false →
      s.userStackIndex u ≠ s.userStackIndex t)
    (hstep : s.removeProcessThread t p = some s') : Inv s' := by
  have htv : s.view p t = some (.detach exec, s.userStackIndex t) := by rw [view_self ht hfree, hpc]
  have hheld := (h.holds (h.process_lt ht)).detach htv fun hexec hindex u pc k hu hv => ?_
  · have hinv := h.leave ht hheld
    rw [UserStacks.removeProcessThread] at hstep
    rw [update_eq_self] at hinv
    by_cases hremoved : ((s.threads p).remove t).1 = some t
    · rw [if_pos hremoved] at hstep
      obtain rfl := Option.some.inj hstep
      split_ifs with hindex
      · rw [if_pos hindex] at hinv
        exact hinv
      · rw [if_neg hindex, update_eq_self] at hinv
        exact hinv
    · rw [if_neg hremoved] at hstep
      cases hstep
  · rw [view] at hv
    split_ifs at hv with hin
    obtain ⟨-, rfl⟩ := Prod.mk.inj (Option.some.inj hv)
    exact hother hexec hindex u hu hin.1 hin.2

/-- `process_exit` ends the process, or returns. -/
theorem Inv.processExit (h : Inv s) (ht : s.process t = some p) (hfree : s.freed t = false) {back : StackPc}
    (hpc : s.pc t = .running ∧ back = .running ∨ s.pc t = .loadElf ∧ back = .put true)
    (hstep : s.processExit t p back = some s') : Inv s' := by
  rw [UserStacks.processExit] at hstep
  split_ifs at hstep with hsize hremoved
  · obtain rfl := Option.some.inj hstep
    rcases hpc with ⟨hpc, rfl⟩ | ⟨hpc, rfl⟩
    all_goals
      apply h.goto ht hfree
      all_goals simp [hpc, StackPc.listed, StackPc.stale, StackPc.new, StackPc.tearing]
  · obtain rfl := Option.some.inj hstep
    have hheld := (h.holds (h.process_lt ht)).processExit (view_self ht hfree) hsize (hpc.imp And.left And.left)
    have hinv := h.leave ht hheld
    rw [update_eq_self] at hinv
    exact hinv

/-- A permitted step keeps the invariant. -/
theorem Inv.step (h : Inv s) (hpermits : Permits s a) (hstep : step s a = some s') : Inv s' := by
  obtain ⟨hfree, hexec, hdetach⟩ := hpermits
  obtain ⟨t, call⟩ := a
  obtain ⟨p, ht, hnext⟩ := Option.bind_eq_some_iff.mp hstep
  clear hstep
  dsimp only at ht hfree hexec hdetach hnext
  split at hnext
  next hpc => exact h.processFork ht hfree hpc hnext
  next hpc =>
    obtain rfl := Option.some.inj hnext
    apply h.goto ht hfree
    all_goals simp [hpc, StackPc.listed, StackPc.stale, StackPc.new, StackPc.tearing]
  next hpc =>
    obtain rfl := Option.some.inj hnext
    apply h.goto ht hfree
    case htearing => exact fun _ u hne hu => hexec rfl u (h.lt_threadsNum hu) hne (hu.trans ht.symm)
    all_goals simp [hpc, StackPc.listed, StackPc.stale, StackPc.new]
  next hpc =>
    obtain rfl := Option.some.inj hnext
    apply h.goto ht hfree
    all_goals simp [hpc, StackPc.listed, StackPc.stale, StackPc.new, StackPc.tearing]
  next hpc => exact h.processExit ht hfree (.inl ⟨hpc, rfl⟩) hnext
  next =>
    cases hpc : s.pc t with
    | fresh | running =>
      rw [hpc] at hnext
      cases hnext
    | put exec =>
      rw [hpc] at hnext
      obtain rfl := Option.some.inj hnext
      exact h.createThread ht hfree hpc
    | allocate exec new =>
      rw [hpc] at hnext
      exact h.allocateStack ht hfree hpc hnext
    | schedule exec new =>
      rw [hpc] at hnext
      obtain rfl := Option.some.inj hnext
      exact h.schedule ht hfree hpc
    | execRemove =>
      rw [hpc, advance] at hnext
      split_ifs at hnext
      obtain rfl := Option.some.inj hnext
      exact h.execRemove ht hfree hpc
    | execDestroy =>
      rw [hpc] at hnext
      obtain rfl := Option.some.inj hnext
      exact h.destroyThreads ht hfree hpc
    | execInit =>
      rw [hpc] at hnext
      obtain rfl := Option.some.inj hnext
      exact h.execInit ht hfree hpc
    | loadElf =>
      rw [hpc] at hnext
      obtain rfl := Option.some.inj hnext
      apply h.goto ht hfree
      all_goals simp [hpc, StackPc.listed, StackPc.stale, StackPc.new, StackPc.tearing]
    | detach exec =>
      rw [hpc] at hnext
      refine h.removeProcessThread ht hfree hpc (fun hexec' hindex u hne hu => ?_) hnext
      exact fun hfree' => (hdetach (hexec' ▸ hpc) u (h.lt_threadsNum hu) hne (hu.trans ht.symm) hfree').resolve_left (by omega)
  next hpc => exact h.processExit ht hfree (.inr ⟨hpc, rfl⟩) hnext
  next => cases hnext

/-- The main process and the init process hold their threads, which have no stacks. -/
theorem start_inv : Inv start := by
  have hput : ∀ {table : HashTable Nat} {t : Nat}, table.Valid → (table.put t t).2.Valid ∧
      (table.put t t).2.get = update table.get t (some t) := fun hvalid =>
    ⟨(HashTable.put_spec hvalid _ _).1, (HashTable.put_spec hvalid _ _).2.2⟩
  have hinit : (HashTable.init : HashTable Nat).Valid := HashTable.init_valid
  constructor
  case holds =>
    intro p hp
    have hcases : p = 0 ∨ p = 1 := by
      have hlt : p < 2 := hp
      omega
    refine View.holds_start ?_ ?_ ?_ rfl testBit_create
    · rcases hcases with rfl | rfl
      · exact (hput (hput hinit).1).1
      · exact (hput hinit).1
    · intro u x hu
      rw [view] at hu
      split_ifs at hu
      exact (Option.some.inj hu).symm
    · intro k
      rcases hcases with rfl | rfl
      · have hget : (start.threads 0).get = update (update HashTable.init.get 0 (some 0)) 1 (some 1) := by
          rw [← (hput hinit).2]
          exact (hput (hput hinit).1).2
        rw [hget, view]
        simp only [start]
        grind [HashTable.get_init]
      · have hget : (start.threads 1).get = update HashTable.init.get 2 (some 2) := (hput hinit).2
        rw [hget, view]
        simp only [start]
        grind [HashTable.get_init]
  case process_lt =>
    intro t p ht
    simp only [start] at ht ⊢
    grind
  case unborn =>
    intro t ht
    simp only [start] at ht ⊢
    grind

theorem inv_of_run {as : List Action} (hrun : Run (Guarded Permits (Steps step)) start as s) : Inv s :=
  hrun.invariant (fun hinv hstep => hinv.step hstep.1 hstep.2) start_inv

/-- When no operation on a process is in progress, its bitmap agrees with its threads. -/
theorem user_stacks_agree {as : List Action} (hrun : Run (Guarded Permits (Steps step)) start as s)
    (hp : p < s.processesNum) (hexited : s.exited p = false) (hsettled : Settled s p) : Agree s p := by
  have hinv := inv_of_run hrun
  have hheld := hinv.holds hp
  have hsettled' : ∀ {t x}, s.view p t = some x → x = (s.pc t, s.userStackIndex t) ∧ (s.pc t).settled = true := by
    intro t x hv
    rw [view] at hv
    split_ifs at hv with hin
    exact ⟨(Option.some.inj hv).symm, hsettled t (hinv.lt_threadsNum hin.1) hin.1 hin.2⟩
  have hclearing : ¬ (s.view p).Clearing := by
    rintro ⟨t, j, hv⟩
    obtain ⟨heq, hset⟩ := hsettled' hv
    rw [← (Prod.mk.inj heq).1] at hset
    cases hset
  have howns : ∀ {t i}, (s.view p).Owns t i ↔ (s.threads p).get t = some t ∧ s.userStackIndex t = i := by
    intro t i
    constructor
    · rintro ⟨pc, hv, hstale⟩
      obtain ⟨heq, hset⟩ := hsettled' hv
      obtain ⟨rfl, hindex⟩ := Prod.mk.inj heq
      refine ⟨hheld.listed.mpr ⟨rfl, _, _, hv, ?_⟩, hindex.symm⟩
      cases hpc : s.pc t <;> simp_all [StackPc.settled, StackPc.listed]
    · rintro ⟨hget, hindex⟩
      obtain ⟨-, pc, j, hv, -⟩ := hheld.listed.mp hget
      obtain ⟨heq, hset⟩ := hsettled' hv
      obtain ⟨rfl, rfl⟩ := Prod.mk.inj heq
      refine ⟨_, hindex ▸ hv, ?_⟩
      cases hpc : s.pc t <;> simp_all [StackPc.settled, StackPc.stale]
  have hused : ∀ {id t}, (s.threads p).get id = some t → 0 ≤ s.userStackIndex t →
      (s.view p).Owns t (s.userStackIndex t).toNat := by
    intro id t hget hindex
    obtain rfl := (hheld.listed.mp hget).1
    exact howns.mpr ⟨hget, (Int.toNat_of_nonneg hindex).symm⟩
  constructor
  case bits =>
    intro i
    constructor
    · intro hi
      obtain ⟨t, ht⟩ := hheld.owned hexited hclearing hi
      exact ⟨t, t, howns.mp ht⟩
    · rintro ⟨id, t, hget, hindex⟩
      obtain rfl := (hheld.listed.mp hget).1
      exact hheld.used hclearing (howns.mpr ⟨hget, hindex⟩)
  case distinct =>
    intro id id' t t' hget hget' hindex heq
    exact hheld.distinct (hused hget hindex) (heq ▸ hused hget' (heq ▸ hindex))
  case allocates =>
    intro i b hfirst id t hget hindex
    have howned := hused hget (by omega)
    rw [hindex, Int.toNat_natCast] at howned
    obtain ⟨-, hfree, -⟩ := Bitmap.findFirstFree_eq_some (Bitmap.allocateFirstFree_eq_some hfirst).1
    exact Bool.noConfusion ((hheld.used hclearing howned).symm.trans hfree)

/-- In the init process, `process_exec` gives the thread of the program the first stack. -/
def initProgram : List Action := ⟨2, .exec⟩ :: List.replicate 8 ⟨2, .next⟩

/-- The program forks, and each of the two processes creates another thread. One of the threads exits. -/
def sampleActions : List Action :=
  initProgram ++ [⟨3, .fork⟩, ⟨3, .create⟩, ⟨4, .create⟩, ⟨3, .next⟩, ⟨4, .next⟩, ⟨4, .next⟩, ⟨3, .next⟩, ⟨4, .next⟩, ⟨3, .next⟩,
    ⟨6, .exit⟩, ⟨6, .next⟩]

theorem sample_user_stacks_agree :
    ∃ s, Run (Guarded Permits (Steps step)) start sampleActions s ∧ Agree s 1 ∧ Agree s 2 := by
  have hsample : (execute (permit (fun s a => decide (Permits s a)) step) start sampleActions).any (fun s =>
      decide (s.processesNum = 3 ∧ s.exited 1 = false ∧ s.exited 2 = false ∧ Settled s 1 ∧ Settled s 2)) = true := by
    decide +kernel
  rw [Option.any_eq_true] at hsample
  obtain ⟨s, hexecute, hs⟩ := hsample
  obtain ⟨hnum, hexited, hexited', hsettled, hsettled'⟩ := of_decide_eq_true hs
  have hrun : Run (Guarded Permits (Steps step)) start sampleActions s := run_of_execute_permit of_decide_eq_true hexecute
  exact ⟨s, hrun, user_stacks_agree hrun (by omega) hexited hsettled, user_stacks_agree hrun (by omega) hexited' hsettled'⟩

/-- The program forks, and the child executes another program. The thread of the program has the stack of the thread that called
`process_exec`, whose exit clears its bit. -/
theorem exec_frees_stack :
    ∃ s, Run (Steps step) start (initProgram ++ [⟨3, .fork⟩, ⟨4, .exec⟩] ++ List.replicate 8 ⟨4, .next⟩) s ∧
      2 < s.processesNum ∧ s.exited 2 = false ∧ Settled s 2 ∧ ¬ Agree s 2 := by
  have hsample : (execute step start (initProgram ++ [⟨3, .fork⟩, ⟨4, .exec⟩] ++ List.replicate 8 ⟨4, .next⟩)).any (fun s =>
      decide (2 < s.processesNum ∧ s.exited 2 = false ∧ Settled s 2 ∧ (s.threads 2).get 5 = some 5 ∧ s.userStackIndex 5 = 0 ∧
        (s.userThreadStackIndexes 2).testBit 0 = false)) = true := by
    decide +kernel
  rw [Option.any_eq_true] at hsample
  obtain ⟨s, hexecute, hs⟩ := hsample
  obtain ⟨hnum, hexited, hsettled, hget, hindex, hclear⟩ := of_decide_eq_true hs
  refine ⟨s, run_of_execute hexecute, hnum, hexited, hsettled, fun hagree => ?_⟩
  have hset := (hagree.bits 0).mpr ⟨5, 5, hget, hindex⟩
  exact Bool.noConfusion (hset.symm.trans hclear)

end UserStacks

end LuckOS
