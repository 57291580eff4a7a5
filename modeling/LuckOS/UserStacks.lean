import LuckOS.Bitmap
import LuckOS.HashTable
import LuckOS.Runs

/-!
# The user stacks of the threads of a process

Each process has a bitmap of the stacks that its threads use. `create_new_user_thread` allocates a bit,
`process_fork` sets the bit of the forked thread in the new process, `process_exec` clears the bitmap
and `remove_process_thread` clears the bit of the thread that leaves.

Threads are interleaved. The sections under the lock of a process are single steps, together with
accesses to what no other thread sees yet, and so are the calls of the hash table in `process_exec`,
which does not take the lock. The id of a thread is its name. Threads that `process_exec` frees are
still scheduled, so that freed structs keep their contents.
-/

namespace LuckOS

open Function Runs

/-- Where a thread is. A `fresh` thread is not yet scheduled. Threads that create another thread do
so for `process_exec` or not. -/
inductive StackPc where
  | fresh
  | running
  | put (exec : Bool)
  | allocate (exec : Bool) (new : Nat)
  | schedule (exec : Bool) (new : Nat)
  | execRemove
  | execDestroy
  | execInit
  | loadElf
  | detach (exec : Bool)
  deriving DecidableEq

/-- The threads with their processes and the indexes of their stacks, and the processes with their
threads and bitmaps. -/
structure UserStacks where
  pc : Nat → StackPc
  process : Nat → Option Nat
  userStackIndex : Nat → Int
  threadsNum : Nat
  freed : Nat → Bool
  processesNum : Nat
  threads : Nat → HashTable Nat
  userThreadStackIndexes : Nat → Bitmap
  exited : Nat → Bool

namespace UserStacks

/-- `USER_PRCOESS_THREDS_MAX`. -/
def userProcessThreadsMax : Nat := 4096

/-- The main process with the main thread and the clean thread, and the init process with its thread. -/
def start : UserStacks where
  pc := fun _ => .running
  process := fun t => if t < 2 then some 0 else if t = 2 then some 1 else none
  userStackIndex := fun _ => -1
  threadsNum := 3
  freed := fun _ => false
  processesNum := 2
  threads := fun p => if p = 0 then ((HashTable.init.put 0 0).2.put 1 1).2 else (HashTable.init.put 2 2).2
  userThreadStackIndexes := fun _ => Bitmap.create none userProcessThreadsMax
  exited := fun _ => false

def goto (s : UserStacks) (t : Nat) (pc : StackPc) : UserStacks := { s with pc := update s.pc t pc }

/-- `process_fork`. It is called in user mode, by a thread with a stack. -/
def processFork (s : UserStacks) (t : Nat) : Option UserStacks :=
  if 0 ≤ s.userStackIndex t then
    some { s with
      pc := update s.pc s.threadsNum .running
      process := update s.process s.threadsNum (some s.processesNum)
      userStackIndex := update s.userStackIndex s.threadsNum (s.userStackIndex t)
      threadsNum := s.threadsNum + 1
      freed := update s.freed s.threadsNum false
      processesNum := s.processesNum + 1
      threads := update s.threads s.processesNum (HashTable.init.put s.threadsNum s.threadsNum).2
      userThreadStackIndexes := update s.userThreadStackIndexes s.processesNum
        ((Bitmap.create none userProcessThreadsMax).setBit (s.userStackIndex t).toNat)
      exited := update s.exited s.processesNum false }
  else none

/-- `init_thread` and `add_process_thread` in `create_new_user_thread`. -/
def createThread (s : UserStacks) (t p : Nat) (exec : Bool) : UserStacks :=
  { s with
    pc := update (update s.pc s.threadsNum .fresh) t (.allocate exec s.threadsNum)
    process := update s.process s.threadsNum (some p)
    userStackIndex := update s.userStackIndex s.threadsNum (-1)
    threadsNum := s.threadsNum + 1
    freed := update s.freed s.threadsNum false
    threads := update s.threads p ((s.threads p).put s.threadsNum s.threadsNum).2 }

/-- The rest of `create_new_user_thread`. Without a free stack it returns a null pointer, which
`process_exec` schedules. -/
def allocateStack (s : UserStacks) (t p : Nat) (exec : Bool) (new : Nat) : Option UserStacks :=
  match (s.userThreadStackIndexes p).allocateFirstFree with
  | none => if exec then none else some (s.goto t .running)
  | some (stackIndex, b) => some { s.goto t (.schedule exec new) with
      userStackIndex := update s.userStackIndex new stackIndex
      userThreadStackIndexes := update s.userThreadStackIndexes p b }

/-- `hash_table_destroy` of the threads in `process_exec`, which frees them. -/
def destroyThreads (s : UserStacks) (t p : Nat) : UserStacks :=
  { s.goto t .execInit with
    threads := update s.threads p (s.threads p).destroy
    freed := fun u => s.freed u || (s.threads p).entries.any (·.2 == u) }

/-- `remove_process_thread`, with its assertion. -/
def removeProcessThread (s : UserStacks) (t p : Nat) : Option UserStacks :=
  if ((s.threads p).remove t).1 = some t then
    some { s with
      process := update s.process t none
      threads := update s.threads p ((s.threads p).remove t).2
      userThreadStackIndexes := if 0 ≤ s.userStackIndex t then
        update s.userThreadStackIndexes p ((s.userThreadStackIndexes p).clearBit (s.userStackIndex t).toNat)
        else s.userThreadStackIndexes }
  else none

/-- `process_exit`. It returns if the process has several threads. -/
def processExit (s : UserStacks) (t p : Nat) (back : StackPc) : Option UserStacks :=
  if 1 < (s.threads p).size then some (s.goto t back)
  else if ((s.threads p).remove t).1 = some t then
    some { s with
      process := update s.process t none
      threads := update s.threads p ((s.threads p).remove t).2.destroy
      exited := update s.exited p true }
  else none

/-- The next step of a thread in an operation. -/
def advance (s : UserStacks) (t p : Nat) : StackPc → Option UserStacks
  | .fresh | .running => none
  | .put exec => some (s.createThread t p exec)
  | .allocate exec new => s.allocateStack t p exec new
  | .schedule exec new => some ((s.goto new .running).goto t (if exec then .detach true else .running))
  | .execRemove =>
    if ((s.threads p).remove t).1 = some t then
      some { s.goto t .execDestroy with threads := update s.threads p ((s.threads p).remove t).2 }
    else none
  | .execDestroy => some (s.destroyThreads t p)
  | .execInit => some { s.goto t .loadElf with
      threads := update s.threads p (HashTable.init.put t t).2
      userThreadStackIndexes := update s.userThreadStackIndexes p (s.userThreadStackIndexes p).clear }
  | .loadElf => some (s.goto t (.put true))
  | .detach _ => s.removeProcessThread t p

/-- What a thread does: it calls an operation, takes the next step in it, or fails to load a program. -/
inductive Call where
  | fork
  | create
  | exec
  | exit
  | processExit
  | next
  | fail
  deriving DecidableEq

/-- The step of a thread. -/
structure Action where
  thread : Nat
  call : Call

def step (s : UserStacks) (a : Action) : Option UserStacks :=
  (s.process a.thread).bind fun p => match a.call, s.pc a.thread with
    | .fork, .running => s.processFork a.thread
    | .create, .running => some (s.goto a.thread (.put false))
    | .exec, .running => some (s.goto a.thread .execRemove)
    | .exit, .running => some (s.goto a.thread (.detach false))
    | .processExit, .running => s.processExit a.thread p .running
    | .next, pc => s.advance a.thread p pc
    | .fail, .loadElf => s.processExit a.thread p (.put true)
    | _, _ => none

end UserStacks

namespace StackPc

/-- The thread is in the table of its process. -/
def listed : StackPc → Bool
  | execDestroy | execInit => false
  | _ => true

/-- The thread is in the part of `process_exec` in which it does not take the lock. -/
def tearing : StackPc → Bool
  | execRemove | execDestroy | execInit => true
  | _ => false

/-- `process_exec` has cleared the bit of the stack of the thread. -/
def stale : StackPc → Bool
  | loadElf | put true | allocate true _ | schedule true _ | detach true => true
  | _ => false

/-- The thread is in no operation. -/
def settled : StackPc → Bool
  | fresh | running => true
  | _ => false

/-- The thread that is created. -/
def new : StackPc → Option Nat
  | allocate _ n | schedule _ n => some n
  | _ => none

end StackPc

namespace UserStacks

/-- No operation on a process is in progress. -/
def Settled (s : UserStacks) (p : Nat) : Prop :=
  ∀ t < s.threadsNum, s.process t = some p → s.freed t = false → (s.pc t).settled = true

/-- The bits of a process are the stacks of its threads, which are distinct, and the next thread gets another one. -/
structure Agree (s : UserStacks) (p : Nat) : Prop where
  bits : ∀ i : Nat, (s.userThreadStackIndexes p).testBit i = true ↔
    ∃ id t, (s.threads p).get id = some t ∧ s.userStackIndex t = i
  distinct : ∀ {id id' t t'}, (s.threads p).get id = some t → (s.threads p).get id' = some t' →
    0 ≤ s.userStackIndex t → s.userStackIndex t = s.userStackIndex t' → t = t'
  allocates : ∀ {i b}, (s.userThreadStackIndexes p).allocateFirstFree = some (i, b) →
    ∀ {id t}, (s.threads p).get id = some t → s.userStackIndex t ≠ i

/-- No other thread of the process is in the part of `process_exec` without the lock. -/
def Alone (s : UserStacks) (t : Nat) : Prop :=
  ∀ u < s.threadsNum, u ≠ t → s.process u = s.process t → s.freed u = false → (s.pc u).tearing = false

/-- No other thread of the process has the stack of this one. -/
def Unshared (s : UserStacks) (t : Nat) : Prop :=
  ∀ u < s.threadsNum, u ≠ t → s.process u = s.process t → s.freed u = false →
    s.userStackIndex t < 0 ∨ s.userStackIndex u ≠ s.userStackIndex t

/-- A thread that `process_exec` has freed does nothing, `process_exec` is not called while another thread of the
process is in its part without the lock, and no other thread has the stack of a thread that leaves after `process_exec`. -/
def Permits (s : UserStacks) (a : Action) : Prop :=
  s.freed a.thread = false ∧ (a.call = .exec → Alone s a.thread) ∧ (s.pc a.thread = .detach true → Unshared s a.thread)

instance (s : UserStacks) (t : Nat) : Decidable (Alone s t) :=
  inferInstanceAs (Decidable (∀ u < s.threadsNum, u ≠ t → s.process u = s.process t → s.freed u = false → _))

instance (s : UserStacks) (t : Nat) : Decidable (Unshared s t) :=
  inferInstanceAs (Decidable (∀ u < s.threadsNum, u ≠ t → s.process u = s.process t → s.freed u = false → _))

instance (s : UserStacks) (a : Action) : Decidable (Permits s a) := inferInstanceAs (Decidable (_ ∧ _ ∧ _))

instance (s : UserStacks) (p : Nat) : Decidable (Settled s p) :=
  inferInstanceAs (Decidable (∀ t < s.threadsNum, s.process t = some p → s.freed t = false → (s.pc t).settled = true))

end UserStacks

/-! ## One process -/

/-- The threads of a process that are not freed, with the indexes of their stacks. -/
abbrev View := Nat → Option (StackPc × Int)

namespace View

/-- The bit of a stack is that of the thread. -/
def Owns (v : View) (t i : Nat) : Prop := ∃ pc, v t = some (pc, (i : Int)) ∧ pc.stale = false

/-- A thread is about to clear the bitmap. -/
def Clearing (v : View) : Prop := ∃ t j, v t = some (.execInit, j)

/-- The table and the bitmap of a process with these threads. A thread that is about to clear the bitmap
is the only one. -/
structure Holds (v : View) (exited : Bool) (table : HashTable Nat) (b : Bitmap) : Prop where
  valid : table.Valid
  listed : ∀ {k w}, table.get k = some w ↔ w = k ∧ ∃ pc j, v k = some (pc, j) ∧ pc.listed = true
  tearing : ∀ {t u pc pc' j j'}, v t = some (pc, j) → v u = some (pc', j') → pc.tearing = true → pc'.tearing = true → t = u
  alone : ∀ {t u j x}, v t = some (.execInit, j) → v u = some x → u = t
  used : ¬ v.Clearing → ∀ {t i}, v.Owns t i → b.testBit i = true
  owned : exited = false → ¬ v.Clearing → ∀ {i}, b.testBit i = true → ∃ t, v.Owns t i
  distinct : ∀ {t u i}, v.Owns t i → v.Owns u i → t = u
  sizes : b.sizes = (128, 128)
  created : ∀ {t pc j n}, v t = some (pc, j) → pc.new = some n → ∃ j, v n = some (.fresh, j)
  without : ∀ {t j exec n}, v t = some (.allocate exec n, j) → v n = some (.fresh, -1)
  creator : ∀ {t u pc pc' j j' n}, v t = some (pc, j) → v u = some (pc', j') → pc.new = some n → pc'.new = some n → t = u

variable {v : View} {t u n i : Nat} {pc pc' : StackPc} {j : Int} {exec exited : Bool} {table : HashTable Nat} {b : Bitmap}

theorem owns_goto (ht : v t = some (pc, j)) (hstale : pc'.stale = pc.stale) :
    (View.Owns (update v t (some (pc', j))) u i) ↔ v.Owns u i := by
  by_cases hu : u = t
  · subst hu
    simp [Owns, ht, hstale]
  · simp [Owns, update_of_ne hu]

theorem clearing_update {x : Option (StackPc × Int)} (ht : ∀ j, v t ≠ some (.execInit, j)) (h : v.Clearing) :
    View.Clearing (update v t x) := by
  obtain ⟨u, j, hu⟩ := h
  have hne : u ≠ t := fun heq => ht j (heq ▸ hu)
  exact ⟨u, j, (update_of_ne hne ..).trans hu⟩

/-- A thread goes on, without a change of the table and of the bitmap. -/
theorem Holds.goto (h : Holds v exited table b) (ht : v t = some (pc, j)) (hlisted : pc'.listed = pc.listed)
    (hstale : pc'.stale = pc.stale) (hinit : pc ≠ .execInit) (hinit' : pc' ≠ .execInit) (hfresh : pc ≠ .fresh)
    (hnew : pc'.new = none)
    (htearing : pc'.tearing = true → ∀ {u pc j}, u ≠ t → v u = some (pc, j) → pc.tearing = false) :
    Holds (update v t (some (pc', j))) exited table b := by
  have hclearing : v.Clearing → View.Clearing (update v t (some (pc', j))) :=
    clearing_update fun j hj => hinit (Prod.mk.inj (Option.some.inj (ht.symm.trans hj))).1
  constructor
  case valid => exact h.valid
  case listed =>
    intro k w
    rw [h.listed]
    grind
  case tearing =>
    intro x y px py jx jy hx hy
    have := @h.tearing x y
    grind
  case alone =>
    intro x y jx z hx hy
    have := @h.alone x y
    grind
  case used =>
    intro hno x i hx
    exact h.used (hno ∘ hclearing) ((owns_goto ht hstale).mp hx)
  case owned =>
    intro hex hno i hi
    obtain ⟨x, hx⟩ := h.owned hex (hno ∘ hclearing) hi
    exact ⟨x, (owns_goto ht hstale).mpr hx⟩
  case distinct =>
    intro x y i hx hy
    exact h.distinct ((owns_goto ht hstale).mp hx) ((owns_goto ht hstale).mp hy)
  case sizes => exact h.sizes
  case created =>
    intro x px jx n hx hn
    have := @h.created x px jx n
    grind
  case without =>
    intro x jx e n hx
    have := @h.without x jx e n
    grind [StackPc.new]
  case creator =>
    intro x y px py jx jy n hx hy hn hn'
    have := @h.creator x y
    grind

/-- A thread is created. It has no stack yet. -/
theorem Holds.put (h : Holds v exited table b) (ht : v t = some (.put exec, j)) (hn : v n = none) :
    Holds (update (update v n (some (.fresh, -1))) t (some (.allocate exec n, j))) exited (table.put n n).2 b := by
  obtain ⟨hvalid, -, hget⟩ := HashTable.put_spec h.valid n n
  have hne : n ≠ t := fun heq => by simp [heq, ht] at hn
  have howns : ∀ {u i}, View.Owns (update (update v n (some (.fresh, -1))) t (some (.allocate exec n, j))) u i ↔ v.Owns u i := by
    intro u i
    by_cases hu : u = t
    · subst hu
      cases exec <;> simp [Owns, ht, StackPc.stale]
    · by_cases hun : u = n
      · subst hun
        rw [Owns, update_of_ne hu, update_self, Owns, hn]
        refine iff_of_false ?_ nofun
        rintro ⟨pc, hpc, -⟩
        have hneg := (Prod.mk.inj (Option.some.inj hpc)).2
        omega
      · simp [Owns, update_of_ne hu, update_of_ne hun]
  have hclearing : v.Clearing → View.Clearing (update (update v n (some (.fresh, -1))) t (some (.allocate exec n, j))) := by
    intro hc
    refine clearing_update ?_ (clearing_update ?_ hc)
    · intro j' hj'
      rw [update_of_ne hne.symm, ht] at hj'
      cases hj'
    · intro j' hj'
      rw [hn] at hj'
      cases hj'
  constructor
  case valid => exact hvalid
  case listed =>
    intro k w
    have := @h.listed k w
    rw [hget]
    grind [StackPc.listed]
  case tearing =>
    intro x y px py jx jy hx hy
    have := @h.tearing x y
    grind [StackPc.tearing]
  case alone =>
    intro x y jx z hx hy
    have := @h.alone x t
    grind
  case used =>
    intro hno x i hx
    exact h.used (hno ∘ hclearing) (howns.mp hx)
  case owned =>
    intro hex hno i hi
    obtain ⟨x, hx⟩ := h.owned hex (hno ∘ hclearing) hi
    exact ⟨x, howns.mpr hx⟩
  case distinct =>
    intro x y i hx hy
    exact h.distinct (howns.mp hx) (howns.mp hy)
  case sizes => exact h.sizes
  case created =>
    intro x px jx m hx hm
    have := @h.created x px jx m
    grind [StackPc.new]
  case without =>
    intro x jx e m hx
    have := @h.without x jx e m
    grind [StackPc.new]
  case creator =>
    intro x y px py jx jy m hx hy hm hm'
    have := @h.creator x y
    have := @h.created x
    have := @h.created y
    grind [StackPc.new]

/-- The thread that is created gets the first stack that is free. -/
theorem Holds.allocate {b' : Bitmap} (h : Holds v exited table b) (ht : v t = some (.allocate exec n, j))
    (hfree : b.allocateFirstFree = some (i, b')) :
    Holds (update (update v t (some (.schedule exec n, j))) n (some (.fresh, i))) exited table b' := by
  have hn := h.without ht
  have hne : n ≠ t := fun heq => by simp [heq, ht] at hn
  have hbits := Bitmap.testBit_allocateFirstFree hfree
  obtain ⟨hfind, rfl⟩ := Bitmap.allocateFirstFree_eq_some hfree
  have hclear := (Bitmap.findFirstFree_eq_some hfind).2.1
  have hclearing : ¬ v.Clearing := by
    rintro ⟨u, ju, hu⟩
    have := h.alone hu ht
    grind
  have howns : ∀ {u k}, View.Owns (update (update v t (some (.schedule exec n, j))) n (some (.fresh, i))) u k ↔
      u = n ∧ k = i ∨ v.Owns u k := by
    intro u k
    by_cases hun : u = n
    · subst hun
      simp [Owns, hn, StackPc.stale]
      omega
    · by_cases hu : u = t
      · subst hu
        cases exec <;> simp [Owns, ht, hun, StackPc.stale]
      · simp [Owns, update_of_ne hu, hun]
  constructor
  case valid => exact h.valid
  case listed =>
    intro k w
    rw [h.listed]
    grind [StackPc.listed]
  case tearing =>
    intro x y px py jx jy hx hy
    have := @h.tearing x y
    grind [StackPc.tearing]
  case alone =>
    intro x y jx z hx hy
    have := @h.alone x t
    grind
  case used =>
    intro hno x k hx
    rw [hbits]
    rcases howns.mp hx with ⟨-, rfl⟩ | hx
    · simp
    · rw [h.used hclearing hx, Bool.or_true]
  case owned =>
    intro hex hno k hk
    rw [hbits, Bool.or_eq_true, decide_eq_true_iff] at hk
    rcases hk with rfl | hk
    · exact ⟨n, howns.mpr (.inl ⟨rfl, rfl⟩)⟩
    · obtain ⟨x, hx⟩ := h.owned hex hclearing hk
      exact ⟨x, howns.mpr (.inr hx)⟩
  case distinct =>
    intro x y k hx hy
    have hunused : ∀ u, ¬ v.Owns u i := fun u hu => by simp [h.used hclearing hu] at hclear
    rcases howns.mp hx with ⟨hxn, hxi⟩ | hx'
    · rcases howns.mp hy with ⟨hyn, -⟩ | hy'
      · exact hxn.trans hyn.symm
      · exact absurd (hxi ▸ hy') (hunused y)
    · rcases howns.mp hy with ⟨-, hyi⟩ | hy'
      · exact absurd (hyi ▸ hx') (hunused x)
      · exact h.distinct hx' hy'
  case sizes => rw [Bitmap.sizes_setBit, h.sizes]
  case created =>
    intro x px jx m hx hm
    have := @h.created x px jx m
    grind [StackPc.new]
  case without =>
    intro x jx e m hx
    have := @h.without x jx e m
    have := @h.creator x t
    grind [StackPc.new]
  case creator =>
    intro x y px py jx jy m hx hy hm hm'
    have := @h.creator x y
    have := @h.creator x t
    have := @h.creator y t
    grind [StackPc.new]

/-- The thread that has been created is scheduled. -/
theorem Holds.schedule (h : Holds v exited table b) (ht : v t = some (.schedule exec n, j)) :
    ∃ j', v n = some (.fresh, j') ∧
      Holds (update (update v n (some (.running, j'))) t (some (if exec then .detach true else .running, j))) exited table b := by
  obtain ⟨j', hn⟩ := h.created ht rfl
  have hne : n ≠ t := fun heq => by simp [heq, ht] at hn
  have hclearing : ¬ v.Clearing := by
    rintro ⟨u, ju, hu⟩
    have := h.alone hu ht
    grind
  have howns : ∀ {u k}, View.Owns (update (update v n (some (.running, j'))) t
      (some (if exec then .detach true else .running, j))) u k ↔ v.Owns u k := by
    intro u k
    by_cases hu : u = t
    · subst hu
      cases exec <;> simp [Owns, ht, StackPc.stale]
    · rw [Owns, update_of_ne hu]
      exact owns_goto hn rfl
  have hcreator : ∀ {u pc k}, u ≠ t → v u = some (pc, k) → pc.new ≠ some n := by
    intro u pc k hu hv hnew
    exact hu (h.creator hv ht hnew rfl)
  refine ⟨j', hn, ?_⟩
  constructor
  case valid => exact h.valid
  case listed =>
    intro k w
    rw [h.listed]
    grind [StackPc.listed]
  case tearing =>
    intro x y px py jx jy hx hy
    have := @h.tearing x y
    grind [StackPc.tearing]
  case alone =>
    intro x y jx z hx hy
    have := @h.alone x t
    grind
  case used =>
    intro hno x k hx
    exact h.used hclearing (howns.mp hx)
  case owned =>
    intro hex hno k hk
    obtain ⟨x, hx⟩ := h.owned hex hclearing hk
    exact ⟨x, howns.mpr hx⟩
  case distinct =>
    intro x y k hx hy
    exact h.distinct (howns.mp hx) (howns.mp hy)
  case sizes => exact h.sizes
  case created =>
    intro x px jx m hx hm
    have := @h.created x px jx m
    have := @hcreator x
    grind [StackPc.new]
  case without =>
    intro x jx e m hx
    have := @h.without x jx e m
    have := @hcreator x
    grind [StackPc.new]
  case creator =>
    intro x y px py jx jy m hx hy hm hm'
    have := @h.creator x y
    grind [StackPc.new]

/-- `process_exec` takes its thread out of the table. -/
theorem Holds.execRemove (h : Holds v exited table b) (ht : v t = some (.execRemove, j)) :
    Holds (update v t (some (.execDestroy, j))) exited (table.remove t).2 b := by
  obtain ⟨hvalid, -, hget⟩ := HashTable.remove_spec h.valid t
  have hclearing : v.Clearing → View.Clearing (update v t (some (.execDestroy, j))) :=
    clearing_update fun j' hj' => by simp [ht] at hj'
  have howns : ∀ {u k}, View.Owns (update v t (some (.execDestroy, j))) u k ↔ v.Owns u k := owns_goto ht rfl
  constructor
  case valid => exact hvalid
  case listed =>
    intro k w
    have := @h.listed k w
    rw [hget]
    grind [StackPc.listed]
  case tearing =>
    intro x y px py jx jy hx hy
    have := @h.tearing x y
    grind [StackPc.tearing]
  case alone =>
    intro x y jx z hx hy
    have := @h.alone x t
    grind
  case used =>
    intro hno x k hx
    exact h.used (hno ∘ hclearing) (howns.mp hx)
  case owned =>
    intro hex hno k hk
    obtain ⟨x, hx⟩ := h.owned hex (hno ∘ hclearing) hk
    exact ⟨x, howns.mpr hx⟩
  case distinct =>
    intro x y k hx hy
    exact h.distinct (howns.mp hx) (howns.mp hy)
  case sizes => exact h.sizes
  case created =>
    intro x px jx m hx hm
    have := @h.created x px jx m
    grind [StackPc.new]
  case without =>
    intro x jx e m hx
    have := @h.without x jx e m
    grind [StackPc.new]
  case creator =>
    intro x y px py jx jy m hx hy hm hm'
    have := @h.creator x y
    grind [StackPc.new]

/-- `process_exec` frees all other threads, because all of them are in the table. -/
theorem Holds.execDestroy (h : Holds v exited table b) (ht : v t = some (.execDestroy, j)) :
    Holds (fun u => if u = t then some (.execInit, j) else if table.get u = some u then none else v u)
      exited table.destroy b := by
  obtain ⟨hvalid, hget⟩ := HashTable.destroy_spec h.valid
  have hothers : ∀ {u}, u ≠ t → (if table.get u = some u then none else v u) = none := by
    intro u hu
    split_ifs with hin
    · rfl
    · cases hv : v u with
      | none => rfl
      | some x =>
        obtain ⟨pc, k⟩ := x
        have := @h.tearing u t
        have := @h.listed u u
        cases hpc : pc <;> grind [StackPc.listed, StackPc.tearing]
  have hview : (fun u => if u = t then some (.execInit, j) else if table.get u = some u then none else v u) =
      update (fun _ => none) t (some (.execInit, j)) := by
    funext u
    by_cases hu : u = t
    · rw [if_pos hu, hu, update_self]
    · rw [if_neg hu, update_of_ne hu, hothers hu]
  have hcleared : View.Clearing (update (fun _ => none) t (some (.execInit, j))) := ⟨t, j, update_self ..⟩
  rw [hview]
  constructor
  case valid => exact hvalid
  case listed => grind [StackPc.listed]
  case tearing => grind
  case alone => grind
  case used => exact fun hno => absurd hcleared hno
  case owned => exact fun _ hno => absurd hcleared hno
  case distinct => grind [Owns]
  case sizes => exact h.sizes
  case created => grind [StackPc.new]
  case without => grind
  case creator => grind

theorem listed_single (hlisted : pc.listed = true) {k w : Nat} : (HashTable.init.put t t).2.get k = some w ↔
    w = k ∧ ∃ pc' j', (update (fun _ => none) t (some (pc, j)) : View) k = some (pc', j') ∧ pc'.listed = true := by
  rw [(HashTable.put_spec HashTable.init_valid t t).2.2]
  by_cases hk : k = t
  · subst hk
    rw [update_self, update_self, Option.some.injEq]
    exact ⟨fun heq => ⟨heq.symm, pc, j, rfl, hlisted⟩, fun heq => heq.1.symm⟩
  · rw [update_of_ne hk, update_of_ne hk, HashTable.get_init]
    exact iff_of_false nofun fun ⟨_, _, _, hnone, _⟩ => nomatch hnone

/-- `process_exec` clears the bitmap. -/
theorem Holds.execInit (h : Holds v exited table b) (ht : v t = some (.execInit, j)) :
    Holds (update v t (some (.loadElf, j))) exited (HashTable.init.put t t).2 b.clear := by
  have hvalid := (HashTable.put_spec HashTable.init_valid t t).1
  have hview : v = update (fun _ => none) t (some (.execInit, j)) := by
    funext u
    by_cases hu : u = t
    · rw [hu, update_self, ht]
    · rw [update_of_ne hu]
      exact Option.eq_none_iff_forall_ne_some.mpr fun x hx => hu (h.alone ht hx)
  have hsizes := Prod.mk.inj h.sizes
  have hbits := Bitmap.testBit_clear (Nat.le_of_eq (hsizes.2.trans hsizes.1.symm))
  rw [hview, update_idem]
  constructor
  case valid => exact hvalid
  case listed => exact listed_single rfl
  case tearing => grind
  case alone => grind
  case used => grind [Owns, StackPc.stale]
  case owned =>
    intro _ _ i hi
    rw [hbits] at hi
    cases hi
  case distinct => grind [Owns]
  case sizes => rw [Bitmap.sizes_clear, h.sizes]
  case created => grind [StackPc.new]
  case without => grind
  case creator => grind

/-- A thread leaves its process, if no other thread has its stack. -/
theorem Holds.detach (h : Holds v exited table b) (ht : v t = some (.detach exec, j))
    (hother : exec = true → 0 ≤ j → ∀ {u pc k}, u ≠ t → v u = some (pc, k) → k ≠ j) :
    Holds (update v t none) exited (table.remove t).2 (if 0 ≤ j then b.clearBit j.toNat else b) := by
  obtain ⟨hvalid, -, hget⟩ := HashTable.remove_spec h.valid t
  have hclearing : ¬ v.Clearing := by
    rintro ⟨u, ju, hu⟩
    have := h.alone hu ht
    grind
  have howns : ∀ {u k}, View.Owns (update v t none) u k ↔ u ≠ t ∧ v.Owns u k := by
    intro u k
    by_cases hu : u = t
    · simp [Owns, hu]
    · simp [Owns, hu]
  have hbits : ∀ k : Nat, (if 0 ≤ j then b.clearBit j.toNat else b).testBit k = (!decide ((k : Int) = j) && b.testBit k) := by
    intro k
    split_ifs with hj
    · have hiff : k = j.toNat ↔ (k : Int) = j := by omega
      rw [Bitmap.testBit_clearBit, decide_eq_decide.mpr hiff]
    · have hne : (k : Int) ≠ j := by omega
      simp [hne]
  have hself : ∀ {u k}, u ≠ t → v.Owns u k → (k : Int) ≠ j := by
    rintro u k hu ⟨pc, hpc, hstale⟩ rfl
    cases exec with
    | true => exact hother rfl (by omega) hu hpc rfl
    | false => exact hu (h.distinct ⟨pc, hpc, hstale⟩ ⟨_, ht, rfl⟩)
  constructor
  case valid => exact hvalid
  case listed =>
    intro k w
    have := @h.listed k w
    rw [hget]
    grind
  case tearing =>
    intro x y px py jx jy hx hy
    have := @h.tearing x y
    grind
  case alone =>
    intro x y jx z hx hy
    have := @h.alone x y
    grind
  case used =>
    intro _ x k hx
    obtain ⟨hne, hx⟩ := howns.mp hx
    rw [hbits, h.used hclearing hx, decide_eq_false (hself hne hx)]
    rfl
  case owned =>
    intro hex _ k hk
    rw [hbits, Bool.and_eq_true, Bool.not_eq_true', decide_eq_false_iff_not] at hk
    obtain ⟨x, hx⟩ := h.owned hex hclearing hk.2
    refine ⟨x, howns.mpr ⟨?_, hx⟩⟩
    rintro rfl
    obtain ⟨pc, hpc, -⟩ := hx
    exact hk.1 (Prod.mk.inj (Option.some.inj (hpc.symm.trans ht))).2
  case distinct =>
    intro x y k hx hy
    exact h.distinct (howns.mp hx).2 (howns.mp hy).2
  case sizes =>
    split_ifs
    · rw [Bitmap.sizes_clearBit, h.sizes]
    · exact h.sizes
  case created =>
    intro x px jx m hx hm
    have := @h.created x px jx m
    grind
  case without =>
    intro x jx e m hx
    have := @h.without x jx e m
    grind
  case creator =>
    intro x y px py jx jy m hx hy hm hm'
    have := @h.creator x y
    grind

/-- The last thread of the table exits with its process. -/
theorem Holds.processExit (h : Holds v exited table b) (ht : v t = some (pc, j)) (hsize : ¬ 1 < table.size)
    (hpc : pc = .running ∨ pc = .loadElf) : Holds (update v t none) true (table.remove t).2.destroy b := by
  obtain ⟨hvalid, -, hget⟩ := HashTable.remove_spec h.valid t
  obtain ⟨hvalid', hget'⟩ := HashTable.destroy_spec hvalid
  have hclearing : ¬ v.Clearing := by
    rintro ⟨u, ju, hu⟩
    have := h.alone hu ht
    grind
  have howns : ∀ {u k}, View.Owns (update v t none) u k → v.Owns u k := by
    intro u k
    by_cases hu : u = t
    · simp [Owns, hu]
    · simp [Owns, update_of_ne hu]
  have honly : ∀ {u pc k}, u ≠ t → v u = some (pc, k) → pc.listed = false := by
    intro u pc' k hu hv
    by_contra hlisted
    refine hsize ((HashTable.one_lt_size h.valid).mpr ⟨u, t, hu, ?_, ?_⟩)
    · rw [h.listed.mpr ⟨rfl, _, _, hv, by simpa using hlisted⟩]
      nofun
    · rw [h.listed.mpr ⟨rfl, _, _, ht, by rcases hpc with rfl | rfl <;> rfl⟩]
      nofun
  constructor
  case valid => exact hvalid'
  case listed =>
    intro k w
    rw [hget']
    grind
  case tearing =>
    intro x y px py jx jy hx hy
    have := @h.tearing x y
    grind
  case alone =>
    intro x y jx z hx hy
    have := @h.alone x y
    grind
  case used => exact fun _ x k hx => h.used hclearing (howns hx)
  case owned => nofun
  case distinct =>
    intro x y k hx hy
    exact h.distinct (howns hx) (howns hy)
  case sizes => exact h.sizes
  case created =>
    intro x px jx m hx hm
    have := @honly x
    have := @h.created x px jx m
    cases px <;> grind [StackPc.new, StackPc.listed]
  case without =>
    intro x jx e m hx
    have := @honly x
    grind [StackPc.listed]
  case creator =>
    intro x y px py jx jy m hx hy hm hm'
    have := @h.creator x y
    grind

/-- A process with its first thread. -/
theorem holds_fork {b : Bitmap} (hsizes : b.sizes = (128, 128)) (hbits : ∀ k, b.testBit k = decide ((k : Int) = j)) :
    Holds (update (fun _ => none) t (some (.running, j))) false (HashTable.init.put t t).2 b := by
  have hvalid := (HashTable.put_spec HashTable.init_valid t t).1
  constructor
  case valid => exact hvalid
  case listed => exact listed_single rfl
  case tearing => grind
  case alone => grind
  case used => grind [Owns]
  case owned =>
    intro _ _ i hi
    rw [hbits, decide_eq_true_iff] at hi
    exact ⟨t, .running, by rw [update_self, hi], rfl⟩
  case distinct => grind [Owns]
  case sizes => exact hsizes
  case created => grind [StackPc.new]
  case without => grind
  case creator => grind

/-- A process whose threads have no stacks. -/
theorem holds_start (hvalid : table.Valid) (hv : ∀ u x, v u = some x → x = (.running, -1))
    (hget : ∀ k, table.get k = (v k).map fun _ => k) (hsizes : b.sizes = (128, 128)) (hbits : ∀ k, b.testBit k = false) :
    Holds v false table b := by
  have howns : ∀ {u k}, ¬ v.Owns u k := by
    rintro u k ⟨pc, hpc, -⟩
    have hneg := (Prod.mk.inj (hv _ _ hpc)).2
    omega
  constructor
  case valid => exact hvalid
  case listed =>
    intro k w
    have := hv k
    rw [hget]
    cases hk : v k <;> grind [StackPc.listed]
  case tearing => grind [StackPc.tearing]
  case alone => grind
  case used => exact fun _ _ _ hu => absurd hu howns
  case owned =>
    intro _ _ i hi
    rw [hbits] at hi
    cases hi
  case distinct => exact fun hu => absurd hu howns
  case sizes => exact hsizes
  case created => grind [StackPc.new]
  case without => grind
  case creator => grind [StackPc.new]

end View

end LuckOS
