import LuckOS.ExecExits

/-!
# Steps of `process_exec` and `process_exit`

Each step keeps the invariant, unless a thread tests or frees the other threads while one of them is on its way out of
`process_exec`.
-/

namespace LuckOS

open Function Runs

namespace ExecThreads

variable {pc : Nat → ExecPc} {s s' : Scheduler Empty Nat} {q q' : Queue Empty → List Nat} {t u n created : Nat}
  {p : ExecPc} {threads : HashTable Nat} {k k' : ExecThreads} {code : Int}

structure ExecInv (k : ExecThreads) : Prop where
  placing : ∃ q, Placing k.pc k.sched q
  members : Members k.pc k.created k.threads
  exits : Exits k
  freed : ∀ t, k.freed t = false

/-- The next step tests or frees the other threads only if none is on its way out. -/
def Detached (k : ExecThreads) : Action → Prop
  | .run => (k.pc k.sched.crt).sensitive = true →
      ∀ u, u < k.created → u ≠ k.sched.crt → (k.pc u).detaching = false
  | _ => True

instance (k : ExecThreads) (a : Action) : Decidable (k.Detached a) :=
  match a with
  | .run => inferInstanceAs (Decidable (_ → ∀ u, u < k.created → _))
  | .exec | .exit _ | .fail | .timer => isTrue trivial

theorem Members.detached (h : Members pc created threads)
    (hok : ∀ u, u < created → u ≠ t → (pc u).detaching = false) (hu : u ≠ t) : (pc u).detaching = false := by
  by_cases hlt : u < created
  · exact hok u hlt hu
  · rw [h.unborn (Nat.le_of_not_lt hlt)]
    rfl

/-- Two places between which neither the table nor the status of the thread changes. -/
structure Alike (p p' : ExecPc) : Prop where
  phase : p'.phase = p.phase
  visible : p.phase ≠ .hidden
  listed : p'.listed = p.listed
  active : p'.active = true → p.active = true
  detaching : p'.detaching = true → p.detaching = true
  alone : p'.alone = true → p.alone = true
  new : p'.new = none ∨ p'.new = p.new
  forward : ∀ load, p' ≠ .exitBack load
  argument : p'.argument = none ∨ p'.argument = p.argument
  exiting : ∀ code, p.exiting code = true → p'.exiting code = true ∧ (p'.ended = true → p.ended = true) ∧
    (p'.delivered = true → p.delivered = true)

/-- A thread outside of `process_exit` has no code to keep. -/
theorem keeps_code {p p' : ExecPc} (h : ∀ code, p.exiting code = false) (code : Int) (hexit : p.exiting code = true) :
    p'.exiting code = true ∧ (p'.ended = true → p.ended = true) ∧ (p'.delivered = true → p.delivered = true) :=
  absurd ((h code).symm.trans hexit) Bool.false_ne_true

theorem ExecInv.goto (h : ExecInv k) (p' : ExecPc) (hp : k.pc t = p) (ha : Alike p p') (lock : Option Nat) :
    ExecInv { k.goto t p' with lock := lock } := by
  subst hp
  obtain ⟨q, hq⟩ := h.placing
  refine ⟨⟨q, hq.goto ha.phase⟩, ?_, ?_, h.freed⟩
  · exact h.members.goto ha.visible ha.listed ha.active ha.detaching (fun hu u => h.members.alone (ha.alone hu)) ha.new
      ha.forward
  · exact h.exits.move rfl rfl rfl rfl rfl rfl (fun hu => .inl (ha.active hu)) ha.argument ha.exiting

theorem ExecInv.acquire (h : ExecInv k) (p' : ExecPc) (hcrt : k.sched.crt ≠ 0) (hp : k.pc k.sched.crt = p)
    (ha : Alike p p') : ExecInv (k.acquire k.sched.crt p') := by
  rw [ExecThreads.acquire]
  split
  next => exact h.goto p' hp ha _
  next =>
    obtain ⟨q, hq⟩ := h.placing
    obtain ⟨s', q', hyield, hq'⟩ := hq.threadYield hcrt
    rw [hyield]
    exact ⟨⟨q', hq'⟩, h.members, ⟨h.exits.called, h.exits.exiting, h.exits.ended, h.exits.delivered, h.exits.finished, h.exits.valid⟩, h.freed⟩

theorem ExecInv.execRemove (h : ExecInv k) (hp : k.pc t = .execRemove) :
    ExecInv { k.goto t .execDestroy with threads := (k.threads.remove t).2 } := by
  obtain ⟨q, hq⟩ := h.placing
  refine ⟨⟨q, hq.goto (by rw [hp]; rfl)⟩, ?_, ?_, h.freed⟩
  · exact h.members.remove (by simp [hp, ExecPc.phase]) rfl (fun _ => by rw [hp]; rfl) rfl rfl rfl (by simp)
  · exact h.exits.move rfl rfl rfl rfl rfl rfl (fun _ => .inl (by rw [hp]; rfl)) (.inl rfl)
      (by rw [hp]; exact keeps_code fun _ => rfl)

theorem ExecInv.detachRemove (h : ExecInv k) (hp : k.pc t = .detachRemove) :
    ExecInv { k.goto t .detachUnlock with threads := (k.threads.remove t).2 } := by
  obtain ⟨q, hq⟩ := h.placing
  refine ⟨⟨q, hq.goto (by rw [hp]; rfl)⟩, ?_, ?_, h.freed⟩
  · exact h.members.remove (by simp [hp, ExecPc.phase]) rfl (by simp [ExecPc.active]) rfl rfl rfl (by simp)
  · exact h.exits.move rfl rfl rfl rfl rfl rfl (by simp [ExecPc.active]) (.inl rfl)
      (by rw [hp]; exact keeps_code fun _ => rfl)

/-- With no thread on its way out, the table is empty, and nothing is freed. -/
theorem ExecInv.execDestroy (h : ExecInv k) (hp : k.pc t = .execDestroy)
    (hok : ∀ u, u ≠ t → (k.pc u).detaching = false) : ExecInv (k.destroyThreads.goto t .execLock) := by
  obtain ⟨q, hq⟩ := h.placing
  obtain ⟨hvalid, hempty⟩ := HashTable.destroy_spec h.members.valid
  have hactive : (k.pc t).active = true := by rw [hp]; rfl
  have hnone : ∀ u, k.threads.get u = none := by
    intro u
    rw [h.members.listed]
    by_cases heq : u = t
    · rw [heq, hp]
      rfl
    · rw [h.members.not_listed hactive hok heq]
      rfl
  refine ⟨⟨q, hq.goto (by rw [hp]; rfl)⟩, ?_, ?_, fun u => ?_⟩
  · exact h.members.reset hactive hok (by simp [hp, ExecPc.phase]) hvalid (hempty t) (fun u _ => hempty u) rfl rfl (by simp)
  · exact h.exits.move rfl rfl rfl rfl rfl rfl (fun _ => .inl hactive) (.inl rfl) (by rw [hp]; exact keeps_code fun _ => rfl)
  · change (k.freed u || k.threads.entries.any (·.2 == u)) = false
    rw [h.freed u, Bool.false_or, List.any_eq_false]
    rintro ⟨key, value⟩ hmem
    exact absurd hmem ((HashTable.get_eq_none h.members.valid).mp (hnone key) value)

theorem ExecInv.execInit (h : ExecInv k) (hp : k.pc t = .execInit) :
    ExecInv { k.goto t .execUnlock with threads := (HashTable.init.put t t).2 } := by
  obtain ⟨q, hq⟩ := h.placing
  obtain ⟨hvalid, -, hget⟩ := HashTable.put_spec HashTable.init_valid t t
  have hactive : (k.pc t).active = true := by rw [hp]; rfl
  have halone : ∀ u, u ≠ t → (k.pc u).detaching = false := fun u _ => h.members.alone (t := t) (by rw [hp]; rfl)
  refine ⟨⟨q, hq.goto (by rw [hp]; rfl)⟩, ?_, ?_, h.freed⟩
  · refine h.members.reset hactive halone (by simp [hp, ExecPc.phase]) hvalid ?_ (fun u hu => ?_) rfl rfl (by simp)
    · rw [hget, update_self]
      rfl
    · rw [hget, update_of_ne hu]
      exact HashTable.get_init
  · exact h.exits.move rfl rfl rfl rfl rfl rfl (fun _ => .inl hactive) (.inl rfl) (by rw [hp]; exact keeps_code fun _ => rfl)

theorem ExecInv.addPut (h : ExecInv k) (hp : k.pc t = .addPut) :
    ExecInv { (k.goto k.created .fresh).goto t (.addUnlock k.created) with
      threads := (k.threads.put k.created k.created).2
      created := k.created + 1 } := by
  obtain ⟨q, hq⟩ := h.placing
  have hunborn : k.pc k.created = .unborn := h.members.unborn (Nat.le_refl _)
  have hne : t ≠ k.created := by
    rintro heq
    rw [heq, hunborn] at hp
    cases hp
  have hold : update k.pc k.created .fresh t = .addPut := by rw [update_of_ne hne, hp]
  have hrunning : k.exited = false := by
    rw [← Bool.not_eq_true]
    intro hover
    have hactive := h.exits.finished hover t
    rw [hp] at hactive
    cases hactive
  have hfirst : Exits (k.goto k.created .fresh) :=
    h.exits.move rfl rfl rfl rfl rfl rfl (fun _ => .inr hrunning) (.inl rfl) (by rw [hunborn]; exact keeps_code fun _ => rfl)
  refine ⟨⟨q, (hq.goto (by rw [hunborn]; rfl)).goto (by rw [hold]; rfl)⟩, h.members.add hp, ?_, h.freed⟩
  refine hfirst.move rfl rfl rfl rfl rfl rfl (by simp [ExecPc.active]) (.inl rfl) ?_
  change ∀ code, (update k.pc k.created .fresh t).exiting code = true → _
  rw [hold]
  exact fun _ h => absurd h Bool.false_ne_true

theorem ExecInv.execSchedule (h : ExecInv k) (hp : k.pc k.sched.crt = .execSchedule n) :
    ExecInv { (k.goto n .user).goto k.sched.crt .detachLock with sched := k.sched.addThreadNode n } := by
  obtain ⟨q, hq⟩ := h.placing
  have hfresh : k.pc n = .fresh := h.members.newborn (t := k.sched.crt) (by rw [hp]; rfl)
  have hne : k.sched.crt ≠ n := by
    intro heq
    rw [heq, hfresh] at hp
    cases hp
  have hzero : n ≠ 0 := by
    rintro rfl
    rw [h.members.idle.1] at hfresh
    cases hfresh
  have hold : update k.pc n .user k.sched.crt = .execSchedule n := by rw [update_of_ne hne, hp]
  obtain ⟨q', hq'⟩ := hq.add (p := .user) hzero hne (by rw [hfresh]; rfl) rfl
  have hfirst : Exits (k.goto n .user) :=
    h.exits.move rfl rfl rfl rfl rfl rfl (fun _ => .inl (by rw [hfresh]; rfl)) (.inl rfl)
      (by rw [hfresh]; exact keeps_code fun _ => rfl)
  refine ⟨⟨q', hq'.goto (by rw [hold]; rfl)⟩, h.members.schedule hp, ?_, h.freed⟩
  refine hfirst.move rfl rfl rfl rfl rfl rfl (by simp [ExecPc.active]) (.inl rfl) ?_
  change ∀ code, (update k.pc n .user k.sched.crt).exiting code = true → _
  rw [hold]
  exact fun _ h => absurd h Bool.false_ne_true

/-- The test of `process_exit` finds one thread if no other one is on its way out. -/
theorem Members.size_le_one (h : Members pc created threads) (hactive : (pc t).active = true)
    (hok : ∀ u, u ≠ t → (pc u).detaching = false) : ¬ 1 < threads.size := by
  rw [HashTable.one_lt_size h.valid]
  have hkey : ∀ u, threads.get u ≠ none → u = t := by
    intro u hu
    by_contra hne
    rw [h.listed, h.not_listed hactive hok hne] at hu
    exact hu rfl
  rintro ⟨u, v, hne, hu, hv⟩
  exact hne ((hkey u hu).trans (hkey v hv).symm)

theorem ExecInv.exitCheck {load : Bool} (h : ExecInv k) (hp : k.pc t = .exitCheck code load)
    (hok : ∀ u, u ≠ t → (k.pc u).detaching = false) : ExecInv (k.goto t (.exitOwn code)) := by
  obtain ⟨q, hq⟩ := h.placing
  have hactive : (k.pc t).active = true := by rw [hp]; rfl
  refine ⟨⟨q, hq.goto (by rw [hp]; rfl)⟩, ?_, ?_, h.freed⟩
  · refine h.members.goto (by simp [hp, ExecPc.phase]) (by rw [hp]; rfl) (fun _ => hactive) (by simp [ExecPc.detaching]) ?_
      (.inl rfl) (by simp)
    intro _ u
    by_cases heq : u = t
    · rw [heq]
      exact ExecPc.not_detaching hactive
    · exact hok u heq
  · exact h.exits.move rfl rfl rfl rfl rfl rfl (fun _ => .inl hactive) (.inr (by rw [hp]; rfl))
      (by simp [hp, ExecPc.exiting, ExecPc.ended, ExecPc.delivered])

theorem ExecInv.exitOwn (h : ExecInv k) (hp : k.pc t = .exitOwn code) :
    ExecInv { k.goto t .exitUnlock with
      threads := (k.threads.remove t).2.destroy
      exited := true
      exitCode := code } := by
  obtain ⟨q, hq⟩ := h.placing
  obtain ⟨hvalid, hempty⟩ := HashTable.destroy_spec (HashTable.remove_spec h.members.valid t).1
  have hactive : (k.pc t).active = true := by rw [hp]; rfl
  have halone : ∀ u, u ≠ t → (k.pc u).detaching = false := fun u _ => h.members.alone (t := t) (by rw [hp]; rfl)
  refine ⟨⟨q, hq.goto (by rw [hp]; rfl)⟩, ?_, h.exits.own h.members hp rfl rfl rfl rfl rfl rfl, h.freed⟩
  exact h.members.reset hactive halone (by simp [hp, ExecPc.phase]) hvalid (hempty t) (fun u _ => hempty u) rfl rfl (by simp)

theorem ExecInv.exitParent (h : ExecInv k) (hp : k.pc t = .exitParent) :
    ExecInv { k.goto t .exitThread with exitChildren := (k.exitChildren.put k.pid k.pid).2 } := by
  obtain ⟨q, hq⟩ := h.placing
  refine ⟨⟨q, hq.goto (by rw [hp]; rfl)⟩, ?_, h.exits.deliver hp, h.freed⟩
  exact h.members.goto (by simp [hp, ExecPc.phase]) (by rw [hp]; rfl) (by simp [ExecPc.active]) (by simp [ExecPc.detaching])
    (by simp [ExecPc.alone]) (.inl rfl) (by simp)

theorem ExecInv.exitThread (h : ExecInv k) (hcrt : k.sched.crt ≠ 0) (hp : k.pc k.sched.crt = .exitThread) :
    ExecInv { k.goto k.sched.crt .exitRecord with sched := k.sched.markThreadDead } := by
  obtain ⟨q, hq⟩ := h.placing
  refine ⟨⟨q, hq.die hcrt (by rw [hp]; rfl) rfl⟩, ?_, ?_, h.freed⟩
  · exact h.members.goto (by simp [hp, ExecPc.phase]) (by rw [hp]; rfl) (by simp [ExecPc.active]) (by simp [ExecPc.detaching])
      (by simp [ExecPc.alone]) (.inl rfl) (by simp)
  · exact h.exits.move rfl rfl rfl rfl rfl rfl (by simp [ExecPc.active]) (.inl rfl)
      (by simp [hp, ExecPc.exiting, ExecPc.ended, ExecPc.delivered])

theorem ExecInv.resume {o : Option (Scheduler Empty Nat)} (h : ExecInv k)
    (ho : ∀ s', o = some s' → ∃ q', Placing k.pc s' q') : ExecInv (k.resume o) := by
  have hexits : ∀ {s crashed}, Exits { k with sched := s, crashed := crashed } :=
    ⟨h.exits.called, h.exits.exiting, h.exits.ended, h.exits.delivered, h.exits.finished, h.exits.valid⟩
  cases o with
  | none => exact ⟨h.placing, h.members, hexits, h.freed⟩
  | some s' => exact ⟨ho s' rfl, h.members, hexits, h.freed⟩

theorem ExecInv.advance (h : ExecInv k) (hok : k.Detached .run) (hstep : k.advance k.sched.crt = some k') :
    ExecInv k' := by
  have hcrt : k.pc k.sched.crt ≠ .unborn → k.sched.crt ≠ 0 := by
    intro hne hzero
    rw [hzero] at hne
    exact hne h.members.idle.1
  have hdet : (k.pc k.sched.crt).sensitive = true → ∀ u, u ≠ k.sched.crt → (k.pc u).detaching = false :=
    fun hs u hu => h.members.detached (hok hs) hu
  rw [ExecThreads.advance] at hstep
  cases hp : k.pc k.sched.crt with
  | unborn | fresh | user | gone =>
    rw [hp] at hstep
    cases hstep
  | execRemove =>
    rw [hp] at hstep
    obtain rfl := Option.some.inj hstep
    exact h.execRemove hp
  | execDestroy =>
    rw [hp] at hstep hdet
    obtain rfl := Option.some.inj hstep
    exact h.execDestroy hp (hdet rfl)
  | execLock =>
    rw [hp] at hstep
    obtain rfl := Option.some.inj hstep
    exact h.acquire .execInit (hcrt (by simp [hp])) hp
      ⟨rfl, by simp [ExecPc.phase], rfl, id, id, id, .inl rfl, by simp, .inl rfl, keeps_code fun _ => rfl⟩
  | execInit =>
    rw [hp] at hstep
    obtain rfl := Option.some.inj hstep
    exact h.execInit hp
  | execUnlock =>
    rw [hp] at hstep
    obtain rfl := Option.some.inj hstep
    exact h.goto .loadElf hp
      ⟨rfl, by simp [ExecPc.phase], rfl, id, id, id, .inl rfl, by simp, .inl rfl, keeps_code fun _ => rfl⟩ none
  | loadElf =>
    rw [hp] at hstep
    obtain rfl := Option.some.inj hstep
    exact h.goto .addLock hp
      ⟨rfl, by simp [ExecPc.phase], rfl, id, id, id, .inl rfl, by simp, .inl rfl, keeps_code fun _ => rfl⟩ k.lock
  | addLock =>
    rw [hp] at hstep
    obtain rfl := Option.some.inj hstep
    exact h.acquire .addPut (hcrt (by simp [hp])) hp
      ⟨rfl, by simp [ExecPc.phase], rfl, id, id, id, .inl rfl, by simp, .inl rfl, keeps_code fun _ => rfl⟩
  | addPut =>
    rw [hp] at hstep
    obtain rfl := Option.some.inj hstep
    exact h.addPut hp
  | addUnlock new =>
    rw [hp] at hstep
    obtain rfl := Option.some.inj hstep
    exact h.goto (.stackLock new) hp
      ⟨rfl, by simp [ExecPc.phase], rfl, id, id, id, .inr rfl, by simp, .inl rfl, keeps_code fun _ => rfl⟩ none
  | stackLock new =>
    rw [hp] at hstep
    obtain rfl := Option.some.inj hstep
    exact h.acquire (.stackUnlock new) (hcrt (by simp [hp])) hp
      ⟨rfl, by simp [ExecPc.phase], rfl, id, id, id, .inr rfl, by simp, .inl rfl, keeps_code fun _ => rfl⟩
  | stackUnlock new =>
    rw [hp] at hstep
    obtain rfl := Option.some.inj hstep
    exact h.goto (.execSchedule new) hp
      ⟨rfl, by simp [ExecPc.phase], rfl, id, id, id, .inr rfl, by simp, .inl rfl, keeps_code fun _ => rfl⟩ none
  | execSchedule new =>
    rw [hp] at hstep
    obtain rfl := Option.some.inj hstep
    exact h.execSchedule hp
  | detachLock =>
    rw [hp] at hstep
    obtain rfl := Option.some.inj hstep
    exact h.acquire .detachRemove (hcrt (by simp [hp])) hp
      ⟨rfl, by simp [ExecPc.phase], rfl, id, id, id, .inl rfl, by simp, .inl rfl, keeps_code fun _ => rfl⟩
  | detachRemove =>
    rw [hp] at hstep
    obtain rfl := Option.some.inj hstep
    exact h.detachRemove hp
  | detachUnlock =>
    rw [hp] at hstep
    obtain rfl := Option.some.inj hstep
    exact h.goto .exitThread hp
      ⟨rfl, by simp [ExecPc.phase], rfl, id, id, id, .inl rfl, by simp, .inl rfl, keeps_code fun _ => rfl⟩ none
  | exitLock code load =>
    rw [hp] at hstep
    obtain rfl := Option.some.inj hstep
    exact h.acquire (.exitCheck code load) (hcrt (by simp [hp])) hp
      ⟨rfl, by simp [ExecPc.phase], rfl, id, id, id, .inl rfl, by simp, .inr rfl, fun _ hc => ⟨hc, id, id⟩⟩
  | exitCheck code load =>
    rw [hp] at hstep hdet
    obtain rfl := Option.some.inj hstep
    rw [if_neg (h.members.size_le_one (by rw [hp]; rfl) (hdet rfl))]
    exact h.exitCheck hp (hdet rfl)
  | exitBack load => exact absurd hp (h.members.forward _ load)
  | exitOwn code =>
    rw [hp] at hstep
    obtain rfl := Option.some.inj hstep
    exact h.exitOwn hp
  | exitUnlock =>
    rw [hp] at hstep
    obtain rfl := Option.some.inj hstep
    exact h.goto .exitParent hp
      ⟨rfl, by simp [ExecPc.phase], rfl, id, id, id, .inl rfl, by simp, .inl rfl, fun _ _ => ⟨rfl, id, id⟩⟩ none
  | exitParent =>
    rw [hp] at hstep
    obtain rfl := Option.some.inj hstep
    exact h.exitParent hp
  | exitThread =>
    rw [hp] at hstep
    obtain rfl := Option.some.inj hstep
    exact h.exitThread (hcrt (by simp [hp])) hp
  | exitRecord =>
    rw [hp] at hstep
    obtain rfl := Option.some.inj hstep
    exact h.goto .exitSwitch hp
      ⟨rfl, by simp [ExecPc.phase], rfl, id, id, id, .inl rfl, by simp, .inl rfl, fun _ _ => ⟨rfl, id, id⟩⟩ k.lock
  | exitSwitch =>
    rw [hp] at hstep
    obtain rfl := Option.some.inj hstep
    have hgoto := h.goto .gone hp
      ⟨rfl, by simp [ExecPc.phase], rfl, id, id, id, .inl rfl, by simp, .inl rfl, fun _ _ => ⟨rfl, id, id⟩⟩ k.lock
    refine hgoto.resume fun s' hs' => ?_
    obtain ⟨q, hq⟩ := hgoto.placing
    exact hq.doContextSwitch hs'

theorem ExecInv.callExit (h : ExecInv k) (code : Int) (load : Bool)
    (hp : k.pc t = .user ∧ load = false ∨ k.pc t = .loadElf) : ExecInv (k.callExit t code load) := by
  obtain ⟨q, hq⟩ := h.placing
  have hphase : (k.pc t).phase = .live := by rcases hp with ⟨hp, -⟩ | hp <;> rw [hp] <;> rfl
  have hlisted : (k.pc t).listed = true := by rcases hp with ⟨hp, -⟩ | hp <;> rw [hp] <;> rfl
  have hactive : (k.pc t).active = true := by rcases hp with ⟨hp, -⟩ | hp <;> rw [hp] <;> rfl
  refine ⟨⟨q, hq.goto hphase.symm⟩, ?_, h.exits.callExit hactive code load, h.freed⟩
  refine h.members.goto (by simp [hphase]) hlisted.symm (fun _ => hactive) (by simp [ExecPc.detaching]) ?_ (.inl rfl) (by simp)
  intro hload u
  rcases hp with ⟨-, rfl⟩ | hp
  · cases hload
  · exact h.members.alone (t := t) (by rw [hp]; rfl)

theorem ExecInv.step {a : Action} (h : ExecInv k) (hok : k.Detached a) (hstep : k.step a = some k') : ExecInv k' := by
  unfold ExecThreads.step at hstep
  cases a with
  | exec =>
    dsimp only at hstep
    split_ifs at hstep with _ hp
    obtain rfl := Option.some.inj hstep
    exact h.goto .execRemove hp
      ⟨rfl, by simp [ExecPc.phase], rfl, id, id, id, .inl rfl, by simp, .inl rfl, keeps_code fun _ => rfl⟩ k.lock
  | exit code =>
    dsimp only at hstep
    split_ifs at hstep with _ hp
    obtain rfl := Option.some.inj hstep
    exact h.callExit code false (.inl ⟨hp, rfl⟩)
  | run =>
    dsimp only at hstep
    split_ifs at hstep
    exact h.advance hok hstep
  | fail =>
    dsimp only at hstep
    split_ifs at hstep with _ hp
    obtain rfl := Option.some.inj hstep
    exact h.callExit (-1) true (.inr hp)
  | timer =>
    dsimp only at hstep
    split_ifs at hstep
    obtain rfl := Option.some.inj hstep
    refine h.resume fun s' hs' => ?_
    obtain ⟨q, hq⟩ := h.placing
    obtain ⟨s'', q', hschedule, hq'⟩ := hq.schedule
    obtain rfl := Option.some.inj (hschedule.symm.trans hs')
    exact ⟨q', hq'⟩

theorem start_inv : ExecInv start := by
  have hbare : Scheduler.Placed (⟨⟨⟨fun _ => none, fun _ => none⟩, fun _ => .init⟩,
      fun t => if t = 0 then some .running else none, 0, 0⟩ : Scheduler Empty Nat) fun _ => [] := by
    refine ⟨⟨fun _ => LinkedList.holds_init, ?_⟩, ?_, ?_, ?_, ?_, ?_⟩ <;> simp +contextual
  have hplacing : Placing (fun _ => .unborn) _ _ :=
    ⟨hbare, rfl, by simp +contextual, by simp [ExecPc.phase], by simp [ExecPc.phase], by simp⟩
  obtain ⟨q, hq⟩ := hplacing.add (n := 1) (p := .user) (by decide) (by decide) rfl rfl
  have hpc : start.pc = update (fun _ => .unborn) 1 .user := by
    funext t
    exact (update_apply (fun _ => ExecPc.unborn) 1 .user t).symm
  have hplace : ∀ t, start.pc t = if t = 1 then .user else .unborn := fun _ => rfl
  obtain ⟨hvalid, -, hget⟩ := HashTable.put_spec HashTable.init_valid 1 1
  refine ⟨⟨q, hpc ▸ hq⟩, ⟨⟨rfl, Nat.succ_pos _⟩, ?_, hvalid, ?_, ?_, ?_, ?_, ?_, ?_⟩,
    ⟨?_, nofun, nofun, nofun, nofun, HashTable.init_valid⟩, fun _ => rfl⟩
  · intro t ht
    rw [hplace, if_neg]
    rintro rfl
    exact absurd ht (by decide)
  · intro t
    rw [hplace]
    change (HashTable.init.put 1 1).2.get t = _
    rw [hget]
    by_cases ht : t = 1
    · rw [ht]
      rfl
    · rw [update_of_ne ht, HashTable.get_init, if_neg ht]
      rfl
  · intro t u ht hu
    rw [hplace] at ht hu
    have hone : ∀ {v}, (if v = 1 then ExecPc.user else .unborn).active = true → v = 1 := by
      intro v hv
      by_contra hne
      rw [if_neg hne] at hv
      cases hv
    exact (hone ht).trans (hone hu).symm
  · intro t u ht
    rw [hplace] at ht
    split_ifs at ht <;> cases ht
  · intro t u ht
    rw [hplace] at ht
    split_ifs at ht <;> cases ht
  · intro t n ht
    rw [hplace] at ht
    split_ifs at ht <;> cases ht
  · intro t load
    rw [hplace]
    split_ifs <;> simp
  · intro t code ht
    rw [hplace] at ht
    split_ifs at ht <;> cases ht

end ExecThreads

end LuckOS
