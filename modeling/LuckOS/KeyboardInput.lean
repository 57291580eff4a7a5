import LuckOS.RingBuffer
import LuckOS.TaskRuns

/-!
# The input of `driver/keyboard.c`

The scancodes in front of the task queues: the handler puts a scancode into a ring buffer and takes
over the waiting readers, and a reader takes scancodes out until they make a character or there are
no more. `process_scancode` is any function of its static variables and the scancode.
-/

namespace LuckOS

open Function Runs

abbrev Scancode := BitVec 8

/-- `KEYBOARD_BUF_SIZE`. -/
abbrev keyboardBufSize : Nat := 1024

universe u

/-- The threads, the buffer, and the static variables of `process_scancode`. The last three fields
record the scancodes that were given to `process_scancode`, those that arrived, with the number of
those that were queued then, and how often `dequeue` was called with an empty buffer. -/
structure KeyboardInput (σ : Type u) where
  tasks : TaskQueues
  queue : RingBuffer Scancode
  keys : σ
  processed : List Scancode
  arrivals : List (Scancode × Nat)
  underflows : Nat

namespace KeyboardInput

variable {σ : Type u}

/-- `KH_HASDATA`. -/
def hasData (k : BitVec 32) : Bool := (k.sshiftRight 16 &&& 0x04) != 0

/-- `KH_ISMAKE`. -/
def isMake (k : BitVec 32) : Bool := (k.sshiftRight 16 &&& 0x01) != 0

/-- `KH_GETCHAR`. -/
def getChar (k : BitVec 32) : Int := (k &&& 0xFF).toInt

/-- `init_keyboard`. -/
def start (keys : σ) : KeyboardInput σ where
  tasks := TaskQueues.start
  queue := ⟨fun _ => 0, 0, 0, 0⟩
  keys := keys
  processed := []
  arrivals := []
  underflows := 0

section

variable (process : σ → Scancode → σ × BitVec 32)

/-- `process_scancode` of the scancode from `dequeue`. -/
def processNext (s : KeyboardInput σ) : BitVec 32 × KeyboardInput σ :=
  let (code, queue) := s.queue.dequeue keyboardBufSize
  let (keys, augchar) := process s.keys code
  (augchar, { s with
    queue := queue
    keys := keys
    processed := s.processed ++ [code]
    underflows := if s.queue.size = 0 then s.underflows + 1 else s.underflows })

/-- The loop of `read_keyboard_char_impl`; it is unfinished when it runs out of rounds. -/
def readLoop : Nat → KeyboardInput σ → Option (Int × KeyboardInput σ)
  | 0, _ => none
  | rounds + 1, s =>
    if s.queue.size = 0 then some (-1, s)
    else
      let (augchar, s) := processNext process s
      if hasData augchar && isMake augchar then some (getChar augchar, s) else readLoop rounds s

/-- `read_keyboard_char_impl`. The buffer is empty after `KEYBOARD_BUF_SIZE` rounds. -/
def readKeyboardCharImpl (s : KeyboardInput σ) : Option (Int × KeyboardInput σ) :=
  readLoop process (keyboardBufSize + 1) s

/-- The steps of the task queues; the interrupts of the keyboard come with a scancode. -/
inductive Action where
  | call (f : TaskCall)
  | run (answer : Bool)
  | timer
  | keyboard (scancode : Scancode)

/-- The current thread is in the section of `read_keyboard_char` with interrupts disabled. -/
def Reads (s : KeyboardInput σ) : Prop := s.tasks.stack s.tasks.crt = [] ∧ s.tasks.pc s.tasks.crt = .readChar

instance (s : KeyboardInput σ) : Decidable s.Reads := inferInstanceAs (Decidable (_ ∧ _))

/-- A reader goes on with its character, or blocks without one. -/
def step (s : KeyboardInput σ) : Action → Option (KeyboardInput σ)
  | .call f => (s.tasks.step (.call f)).map fun tasks => { s with tasks := tasks }
  | .run answer =>
    if s.Reads then
      (readKeyboardCharImpl process s).bind fun (c, s) =>
        (s.tasks.step (.run (decide (c ≠ -1)))).map fun tasks => { s with tasks := tasks }
    else (s.tasks.step (.run answer)).map fun tasks => { s with tasks := tasks }
  | .timer => (s.tasks.step .timer).map fun tasks => { s with tasks := tasks }
  | .keyboard scancode => (s.tasks.step .keyboard).map fun tasks =>
    { s with
      tasks := tasks
      queue := (s.queue.enqueue keyboardBufSize scancode).2
      arrivals := s.arrivals ++ [(scancode, (s.queue.contents keyboardBufSize).length)] }

end

/-- The scancodes that did not find a full buffer. -/
def accepted (s : KeyboardInput σ) : List Scancode := (s.arrivals.filter fun a => a.2 < keyboardBufSize).map Prod.fst

/-- What was accepted has been processed or is still in the buffer. -/
structure Delivered (s : KeyboardInput σ) : Prop where
  wellFormed : s.queue.WellFormed keyboardBufSize
  inOrder : s.accepted = s.processed ++ s.queue.contents keyboardBufSize
  never : s.underflows = 0

variable {process : σ → Scancode → σ × BitVec 32} {s s' : KeyboardInput σ} {keys : σ} {rounds : Nat}

theorem start_delivered : (start keys).Delivered :=
  ⟨⟨Int.le_refl 0, Int.natCast_nonneg keyboardBufSize, Nat.zero_lt_succ 1023, rfl⟩, rfl, rfl⟩

/-- A scancode that is processed is the first one in the buffer. -/
theorem Delivered.processNext (process : σ → Scancode → σ × BitVec 32) (h : s.Delivered) (hne : s.queue.size ≠ 0) :
    (processNext process s).2.Delivered ∧ (processNext process s).2.queue.size = s.queue.size - 1 ∧
      (processNext process s).2.tasks = s.tasks := by
  obtain ⟨hwell, hcontents⟩ := RingBuffer.dequeue_spec h.wellFormed hne
  refine ⟨⟨hwell, ?_, (if_neg hne).trans h.never⟩, rfl, rfl⟩
  change s.accepted = (s.processed ++ [_]) ++ _
  rw [h.inOrder, hcontents, List.append_assoc, List.singleton_append]
  rfl

theorem getChar_ne (k : BitVec 32) : getChar k ≠ -1 := by
  have hle : (k &&& 0xFF).toNat ≤ 255 := by
    rw [BitVec.toNat_and]
    exact Nat.and_le_right
  rw [getChar, BitVec.toInt_eq_toNat_of_lt (by omega)]
  omega

theorem readLoop_empty (h : s.queue.size = 0) : readLoop process (rounds + 1) s = some (-1, s) := by
  rw [readLoop, if_pos h]

/-- The loop ends with a character, or with an empty buffer. -/
theorem readLoop_spec (process : σ → Scancode → σ × BitVec 32) (h : s.Delivered) (hrounds : s.queue.size < rounds) :
    ∃ c s', readLoop process rounds s = some (c, s') ∧ s'.Delivered ∧ s'.tasks = s.tasks ∧ (c = -1 → s'.queue.size = 0) := by
  induction rounds generalizing s with
  | zero =>
    have hnonneg := h.wellFormed.nonneg
    omega
  | succ rounds ih =>
    rw [readLoop]
    by_cases hzero : s.queue.size = 0
    · exact ⟨-1, s, if_pos hzero, h, rfl, fun _ => hzero⟩
    · rw [if_neg hzero]
      obtain ⟨hnext, hsize, htasks⟩ := h.processNext process hzero
      by_cases hchar : hasData (KeyboardInput.processNext process s).1 && isMake (KeyboardInput.processNext process s).1
      · exact ⟨_, _, if_pos hchar, hnext, htasks, fun heq => absurd heq (getChar_ne _)⟩
      · obtain ⟨c, s', hloop, hs', htasks', hempty⟩ := ih hnext (by omega)
        exact ⟨c, s', (if_neg hchar).trans hloop, hs', htasks'.trans htasks, hempty⟩

/-! ## The waiting readers -/

/-- `waiting_tasks`. -/
def waitingTasks (k : TaskQueues) : LinkedList Nat := k.sched.queues.list (.waiting .keyboard)

variable {k k' : TaskQueues} {sched : Scheduler WaitList Nat} {answer : Bool} {p : TaskPc}

theorem set_list {i j : Queue WaitList} (hne : j ≠ i) (s : Queues (Queue WaitList) Nat) (r : Links Nat × LinkedList Nat) :
    (s.set i r).list j = s.list j := update_of_ne hne ..

theorem set_ready_list (s : Queues (Queue WaitList) Nat) (r : Links Nat × LinkedList Nat) (w : WaitList) :
    (s.set .ready r).list (.waiting w) = s.list (.waiting w) := set_list (by simp) s r

theorem set_waiting_list {v w : WaitList} (hne : w ≠ v) (s : Queues (Queue WaitList) Nat) (r : Links Nat × LinkedList Nat) :
    (s.set (.waiting v) r).list (.waiting w) = s.list (.waiting w) := set_list (by simpa using hne) s r

theorem switchTo_list (s : Scheduler WaitList Nat) (n : Nat) (w : WaitList) :
    (s.switchTo n).queues.list (.waiting w) = s.queues.list (.waiting w) := by
  rw [Scheduler.switchTo]
  split_ifs
  · exact (set_ready_list ..).trans (set_ready_list ..)
  · exact set_ready_list ..

theorem doContextSwitch_list {s : Scheduler WaitList Nat} (h : s.doContextSwitch = some sched) (w : WaitList) :
    sched.queues.list (.waiting w) = s.queues.list (.waiting w) := by
  obtain ⟨n, -, rfl⟩ := Option.map_eq_some_iff.mp h
  exact switchTo_list s n w

theorem threadYield_list {s : Scheduler WaitList Nat} (h : s.threadYield = some sched) (w : WaitList) :
    sched.queues.list (.waiting w) = s.queues.list (.waiting w) := by
  refine (doContextSwitch_list h w).trans ?_
  rw [Scheduler.queueMain]
  split_ifs
  · exact set_ready_list ..
  · rfl

theorem waitingTasks_resume {r : Option (Scheduler WaitList Nat)}
    (h : ∀ sched, r = some sched → sched.queues.list (.waiting .keyboard) = waitingTasks k) :
    waitingTasks (k.resume r) = waitingTasks k := by
  cases r with
  | none => rfl
  | some sched => exact h sched rfl

theorem waitingTasks_threadYield (k : TaskQueues) : waitingTasks k.threadYield = waitingTasks k :=
  waitingTasks_resume fun _ h => threadYield_list h _

theorem waitingTasks_schedule (k : TaskQueues) : waitingTasks k.schedule = waitingTasks k := by
  rw [TaskQueues.schedule]
  split_ifs
  · rfl
  · refine waitingTasks_resume fun sched h => ?_
    rw [Scheduler.schedule] at h
    split_ifs at h
    · exact doContextSwitch_list h _
    · obtain rfl := Option.some.inj h
      rfl

/-- Only the section of a reader changes `waiting_tasks` outside of the handlers. -/
theorem waitingTasks_exec (hp : p ≠ .readChar) (h : k.exec answer p = some k') : waitingTasks k' = waitingTasks k := by
  cases p with
  | readChar => exact absurd rfl hp
  | user => cases h
  | yield | readYield | cleanYield | cleanNext =>
    obtain rfl := Option.some.inj h
    exact waitingTasks_threadYield _
  | spawnAlloc | exitDetach | exitAlloc | cleanDestroy =>
    obtain rfl := Option.some.inj h
    rw [TaskQueues.tryLock]
    split_ifs
    · rfl
    · exact waitingTasks_threadYield _
  | exitLock | cleanLock =>
    obtain rfl := Option.some.inj h
    rw [TaskQueues.lockDead]
    split
    · rfl
    · exact waitingTasks_threadYield _
  | spawnAdd t =>
    rw [TaskQueues.exec] at h
    split_ifs at h
    obtain rfl := Option.some.inj h
    exact set_ready_list ..
  | exitAdd n =>
    obtain rfl := Option.some.inj h
    exact set_ready_list ..
  | exitTake n | cleanSleep =>
    obtain rfl := Option.some.inj h
    exact set_waiting_list (by decide) ..
  | exitNotify =>
    obtain rfl := Option.some.inj h
    rw [TaskQueues.notify]
    split_ifs
    · split <;> rfl
    · rfl
  | exitSwitch =>
    obtain rfl := Option.some.inj h
    exact waitingTasks_resume fun _ hswitch => doContextSwitch_list hswitch _
  | readEnter | exitMark | exitRecord | exitUnlock | cleanTest | cleanUnlock | cleanMove | cleanStrayUnlock =>
    obtain rfl := Option.some.inj h
    rfl

theorem waitingTasks_handle (k : TaskQueues) (i : Nat) (rest : List Nat) : waitingTasks (k.handle i rest) = waitingTasks k := by
  rw [TaskQueues.handle]
  split
  · exact set_ready_list ..
  · split
    · exact set_waiting_list (by simp) ..
    · split_ifs
      · exact waitingTasks_schedule _
      · rfl

theorem move_list (s : Queues (Queue WaitList) Nat) (dst src : Queue WaitList) : (s.move dst src).list src = .init :=
  update_self ..

/-- The handler takes over all waiting readers. -/
theorem waitingTasks_keyboard (k : TaskQueues) : waitingTasks k.keyboard = .init := move_list ..

/-! ## Runs -/

/-- What is known of the buffer and the readers. -/
structure Inv (s : KeyboardInput σ) : Prop where
  delivered : s.Delivered
  awake : (waitingTasks s.tasks).size ≠ 0 → s.queue.size = 0
  tasks : TaskQueues.Sound s.tasks

/-- A step of the task queues that does not touch `waiting_tasks`. -/
theorem Inv.tasks_step {a : TaskQueues.Action} (h : s.Inv) (hstep : s.tasks.step a = some k)
    (hsame : waitingTasks k = waitingTasks s.tasks) : Inv { s with tasks := k } := by
  obtain ⟨q, htasks⟩ := h.tasks
  refine ⟨⟨h.delivered.wellFormed, h.delivered.inOrder, h.delivered.never⟩, ?_, htasks.step hstep⟩
  intro hsize
  rw [hsame] at hsize
  exact h.awake hsize

theorem Inv.arrive (h : s.Inv) (scancode : Scancode) (hstep : s.tasks.step .keyboard = some k) :
    Inv { s with
      tasks := k
      queue := (s.queue.enqueue keyboardBufSize scancode).2
      arrivals := s.arrivals ++ [(scancode, (s.queue.contents keyboardBufSize).length)] } := by
  obtain ⟨q, htasks⟩ := h.tasks
  have hlist : waitingTasks k = .init := by
    rw [TaskQueues.step] at hstep
    split_ifs at hstep
    obtain rfl := Option.some.inj hstep
    exact waitingTasks_keyboard s.tasks
  have hwell := h.delivered.wellFormed
  have hlength := RingBuffer.length_contents keyboardBufSize s.queue
  refine ⟨?_, fun hsize => absurd (congrArg LinkedList.size hlist) hsize, htasks.step hstep⟩
  by_cases hfull : s.queue.size = keyboardBufSize
  · have hnot : ¬ (s.queue.contents keyboardBufSize).length < keyboardBufSize := by
      rw [hlength, hfull]
      decide
    rw [RingBuffer.enqueue_of_full hfull]
    refine ⟨hwell, ?_, h.delivered.never⟩
    rw [← h.delivered.inOrder]
    simp [accepted, hnot]
  · obtain ⟨hwell', hcontents⟩ := RingBuffer.enqueue_spec hwell hfull scancode
    have hroom : (s.queue.contents keyboardBufSize).length < keyboardBufSize := by
      have hle := hwell.bounded
      have hnonneg := hwell.nonneg
      rw [hlength]
      omega
    refine ⟨hwell', ?_, h.delivered.never⟩
    have hold := h.delivered.inOrder
    rw [hcontents, ← List.append_assoc, ← hold]
    simp [accepted, hroom]

/-- The step of a reader in its section. -/
theorem run_readChar (hreads : s.Reads) (hstep : s.tasks.step (.run answer) = some k) :
    k = s.tasks.readKeyboard answer := by
  rw [TaskQueues.step] at hstep
  split_ifs at hstep
  rw [hreads.1] at hstep
  dsimp only at hstep
  rw [hreads.2] at hstep
  exact (Option.some.inj hstep).symm

/-- A reader with a character leaves `waiting_tasks` alone. -/
theorem waitingTasks_run (hreads : ¬ s.Reads ∨ answer = true) (hstep : s.tasks.step (.run answer) = some k) :
    waitingTasks k = waitingTasks s.tasks := by
  by_cases hr : s.Reads
  · obtain rfl := run_readChar hr hstep
    obtain rfl := hreads.resolve_left (not_not.mpr hr)
    rfl
  · rw [TaskQueues.step] at hstep
    split_ifs at hstep
    cases hstack : s.tasks.stack s.tasks.crt with
    | nil =>
      rw [hstack] at hstep
      exact waitingTasks_exec (fun hp => hr ⟨hstack, hp⟩) hstep
    | cons i rest =>
      rw [hstack] at hstep
      obtain rfl := Option.some.inj hstep
      exact waitingTasks_handle ..

/-- A reader takes scancodes out, and blocks only when there are no more. -/
theorem Inv.read {c : Int} {t : KeyboardInput σ} (h : s.Inv) (hread : readKeyboardCharImpl process s = some (c, t))
    (hstep : t.tasks.step (.run (decide (c ≠ -1))) = some k) : Inv { t with tasks := k } := by
  have hrounds : s.queue.size < (keyboardBufSize + 1 : Nat) := by
    have hle := h.delivered.wellFormed.bounded
    omega
  obtain ⟨c', t', hloop, hdelivered, htasks, hempty⟩ := readLoop_spec process h.delivered hrounds
  obtain ⟨rfl, rfl⟩ := Prod.mk.inj (Option.some.inj (hloop.symm.trans hread))
  obtain ⟨q, hq⟩ := h.tasks
  rw [htasks] at hstep
  refine ⟨⟨hdelivered.wellFormed, hdelivered.inOrder, hdelivered.never⟩, fun hsize => ?_, hq.step hstep⟩
  by_cases hc : c' = -1
  · exact hempty hc
  · rw [waitingTasks_run (.inr (decide_eq_true hc)) hstep] at hsize
    have hnone : readKeyboardCharImpl process s = some (-1, s) := readLoop_empty (h.awake hsize)
    exact absurd (Prod.mk.inj (Option.some.inj (hread.symm.trans hnone))).1 hc

theorem Inv.step {a : Action} (h : s.Inv) (hstep : step process s a = some s') : s'.Inv := by
  cases a with
  | call f =>
    obtain ⟨k, hk, rfl⟩ := Option.map_eq_some_iff.mp hstep
    refine h.tasks_step hk ?_
    rw [TaskQueues.step] at hk
    split_ifs at hk
    obtain rfl := Option.some.inj hk
    rfl
  | run answer =>
    rw [KeyboardInput.step] at hstep
    split_ifs at hstep with hreads
    · obtain ⟨⟨c, t⟩, hread, ht⟩ := Option.bind_eq_some_iff.mp hstep
      obtain ⟨k, hk, rfl⟩ := Option.map_eq_some_iff.mp ht
      exact h.read hread hk
    · obtain ⟨k, hk, rfl⟩ := Option.map_eq_some_iff.mp hstep
      exact h.tasks_step hk (waitingTasks_run (.inl hreads) hk)
  | timer =>
    obtain ⟨k, hk, rfl⟩ := Option.map_eq_some_iff.mp hstep
    refine h.tasks_step hk ?_
    rw [TaskQueues.step] at hk
    split_ifs at hk
    obtain rfl := Option.some.inj hk
    rfl
  | keyboard scancode =>
    obtain ⟨k, hk, rfl⟩ := Option.map_eq_some_iff.mp hstep
    exact h.arrive scancode hk

theorem inv_of_run {as : List Action} (hrun : Run (Steps (KeyboardInput.step process)) (start keys) as s) : s.Inv :=
  hrun.invariant (fun h hstep => h.step hstep) ⟨start_delivered, fun hsize => absurd rfl hsize, TaskQueues.start_sound⟩

/-- In every run the scancodes that found room are processed in the order of their arrival, the buffer
is well formed and never read when it is empty, every reader gets through its section, and no reader
waits while there are scancodes. -/
theorem keyboard_input {as : List Action} (hrun : Run (Steps (KeyboardInput.step process)) (start keys) as s) :
    s.accepted = s.processed ++ s.queue.contents keyboardBufSize ∧
    0 ≤ s.queue.size ∧ s.queue.size ≤ keyboardBufSize ∧
    (s.queue.tail : Int) = (s.queue.head + s.queue.size) % keyboardBufSize ∧
    s.underflows = 0 ∧
    (∃ c t, readKeyboardCharImpl process s = some (c, t)) ∧
    ∃ q, s.tasks.sched.queues.Represents q ∧ (q (.waiting .keyboard) ≠ [] → s.queue.contents keyboardBufSize = []) := by
  have h := inv_of_run hrun
  have hwell := h.delivered.wellFormed
  have hrounds : s.queue.size < (keyboardBufSize + 1 : Nat) := by
    have hle := hwell.bounded
    omega
  obtain ⟨c, t, hread, -⟩ := readLoop_spec process h.delivered hrounds
  obtain ⟨q, hq⟩ := h.tasks
  have hrep := hq.sleepers.placed.represents
  refine ⟨h.delivered.inOrder, hwell.nonneg, hwell.bounded, hwell.tail_eq, h.delivered.never, ⟨c, t, hread⟩, q, hrep,
    fun hne => ?_⟩
  have hsize : (waitingTasks s.tasks).size ≠ 0 := by
    rw [waitingTasks, hrep.size_eq]
    exact fun hzero => hne (List.length_eq_zero_iff.mp hzero)
  rw [← List.length_eq_zero_iff, RingBuffer.length_contents, h.awake hsize]
  rfl

/-- Every scancode makes a character. -/
def echo (keys : Unit) (code : Scancode) : Unit × BitVec 32 := (keys, 0x50000#32 ||| code.setWidth 32)

/-- A thread waits for the keyboard, and a key is pressed. -/
def samplePress : List Action :=
  [Action.timer] ++ List.replicate 3 (Action.run true) ++ [Action.run false, .run true, .run true, .call .readKeyboardChar, .run true,
    .run false, .keyboard 30]

theorem sample_keyboard_input : ∃ s, Run (Steps (KeyboardInput.step echo)) (start ()) samplePress s ∧
    s.accepted = [30] ∧ s.accepted = s.processed ++ s.queue.contents keyboardBufSize := by
  have htest : (execute (KeyboardInput.step echo) (start ()) samplePress).any (fun s => decide (s.accepted = [30])) = true := by
    decide +kernel
  rw [Option.any_eq_true] at htest
  obtain ⟨s, hexec, haccepted⟩ := htest
  have hrun : Run (Steps (KeyboardInput.step echo)) (start ()) samplePress s := run_of_execute hexec
  exact ⟨s, hrun, of_decide_eq_true haccepted, (keyboard_input hrun).1⟩

end KeyboardInput

end LuckOS
