import LuckOS.SharedIdPool

/-!
# Calls of the id pool that are not interrupted

A call during which no other thread accesses the pool is one step of `IdPool`: its loads and stores find the words of the
bitmap as that step does, and leave them as it does.
-/

namespace LuckOS

open Runs Function

/-- The thread that acts. -/
def IdAction.thread : IdAction → Option Nat
  | allocate t | free t _ | run t | expanded t _ | exhausted t _ => some t
  | reuse .. => none

namespace SharedIdPool

variable {s s' u : SharedIdPool} {p p' : IdPool} {b : Bitmap} {retry : Bool} {t id i n : Nat} {c : IdCall} {a : IdAction}

/-- Thread `t` takes some steps, and no other one does. -/
def Alone (t : Nat) (s s' : SharedIdPool) : Prop :=
  ∃ as : List IdAction, (∀ a ∈ as, a.thread = some t) ∧ Run (Steps step) s as s'

theorem Alone.refl (t : Nat) (s : SharedIdPool) : Alone t s s := ⟨[], fun _ ha => absurd ha List.not_mem_nil, .nil s⟩

theorem Alone.head (hstep : s.step a = some u) (hthread : a.thread = some t) (h : Alone t u s') : Alone t s s' := by
  obtain ⟨as, hall, hrun⟩ := h
  refine ⟨a :: as, fun x hx => ?_, .cons hstep hrun⟩
  rcases List.mem_cons.mp hx with rfl | hx
  · exact hthread
  · exact hall x hx

theorem Alone.trans (h : Alone t s u) (h' : Alone t u s') : Alone t s s' := by
  obtain ⟨as, hall, hrun⟩ := h
  obtain ⟨as', hall', hrun'⟩ := h'
  refine ⟨as ++ as', fun x hx => ?_, hrun.append hrun'⟩
  rcases List.mem_append.mp hx with hx | hx
  · exact hall x hx
  · exact hall' x hx

/-- The call goes on by one step. -/
theorem Alone.run (hrun : (s.goto t c).run t c = some u) (h : Alone t u s') : Alone t (s.goto t c) s' := by
  refine .head (a := .run t) ?_ rfl h
  have hcall : (s.goto t c).call t = c := update_self ..
  rw [step, hcall]
  exact hrun

theorem goto_goto {c' : IdCall} : (s.goto t c).goto t c' = s.goto t c' := by
  simp only [goto, update_idem]

/-- The words of the shared pool are those of a bitmap. -/
structure ShowsBits (s : SharedIdPool) (b : Bitmap) : Prop where
  array : s.words s.array = b.array
  arraySize : s.arraySize = b.arraySize

/-- The shared pool between two calls. -/
structure Shows (s : SharedIdPool) (p : IdPool) : Prop extends ShowsBits s p.idMap where
  size : s.size = p.size
  maxSize : s.maxSize = p.maxSize
  expandSize : s.expandSize = p.expandSize
  fresh : s.array < s.next

/-! ## The search -/

/-- One turn of the search. -/
theorem alone_scanWord (t : Nat) (retry : Bool) (h : s.ShowsBits b) (hi : i < b.arraySize) :
    Alone t (s.goto t (.search retry i))
      (s.goto t ((b.scanWord i).elim (.search retry (i + 1)) (.mark retry · .array))) := by
  have hword : word (s.words s.array) i = b.word i := by
    rw [h.array]
    rfl
  have hlt : i < s.arraySize := by
    rw [h.arraySize]
    exact hi
  have hfirst : (s.goto t (.search retry i)).run t (.search retry i) = some (s.goto t (.searchArray retry i)) := by
    rw [SharedIdPool.run, goto_goto]
    exact congrArg (fun c => some (s.goto t c)) (if_pos hlt)
  have hsecond : (s.goto t (.searchArray retry i)).run t (.searchArray retry i) =
      some (s.goto t (.searchWord retry i s.array)) := by
    rw [SharedIdPool.run, goto_goto]
    rfl
  have hthird : (s.goto t (.searchWord retry i s.array)).run t (.searchWord retry i s.array) =
      some (s.goto t ((b.scanWord i).elim (.search retry (i + 1)) (.mark retry · .array))) := by
    have hsame : word ((s.goto t (.searchWord retry i s.array)).words s.array) i = b.word i := hword
    rw [SharedIdPool.run, goto_goto, hsame, Bitmap.scanWord]
    by_cases hfull : b.word i ≠ 0xFFFFFFFF
    · rw [if_pos hfull, if_pos hfull]
      cases Bitmap.findInWord (b.word i) with
      | none => rfl
      | some j => rfl
    · rw [if_neg hfull, if_neg hfull]
      rfl
  exact .run hfirst (.run hsecond (.run hthird (.refl t _)))

/-- The search finds the first clear bit, or runs to the end of the array. -/
theorem alone_search (t : Nat) (retry : Bool) (h : s.ShowsBits b) (hi : i + n = b.arraySize) :
    Alone t (s.goto t (.search retry i))
      (s.goto t (((List.range' i n).findSome? b.scanWord).elim (.search retry b.arraySize) (.mark retry · .array))) := by
  induction n generalizing i with
  | zero =>
    obtain rfl : i = b.arraySize := hi
    exact .refl t _
  | succ n ih =>
    have hturn := alone_scanWord t retry h (i := i) (by omega)
    rw [List.range'_succ, List.findSome?_cons]
    cases hscan : b.scanWord i with
    | some id =>
      rw [hscan] at hturn
      exact hturn
    | none =>
      rw [hscan] at hturn
      exact hturn.trans (ih (by omega))

/-! ## The mark -/

/-- The state behind a call that has found and marked a free id. -/
def allocated (s : SharedIdPool) (t id : Nat) (lock : Option Nat) : SharedIdPool :=
  { s.goto t .idle with
    words := update s.words s.array ((s.words s.array).modify (id / 32) (· ||| Bitmap.mask (id % 32)))
    lock := lock
    owned := update s.owned t (id :: s.owned t) }

theorem alone_mark (retry : Bool) :
    Alone t (s.goto t (.mark retry id .array)) (s.allocated t id (if retry then s.lock else none)) := by
  have hload : (s.goto t (.mark retry id .array)).run t (.mark retry id .array) =
      some (s.goto t (.mark retry id (.load s.array))) := by
    rw [SharedIdPool.run, goto_goto]
    rfl
  have hword : (s.goto t (.mark retry id (.load s.array))).run t (.mark retry id (.load s.array)) =
      some (s.goto t (.mark retry id (.store s.array (word (s.words s.array) (id / 32))))) := by
    rw [SharedIdPool.run, goto_goto]
    rfl
  have hstore : (s.goto t (.mark retry id (.store s.array (word (s.words s.array) (id / 32))))).run t
      (.mark retry id (.store s.array (word (s.words s.array) (id / 32)))) =
      some ((s.storeWord s.array (id / 32) (word (s.words s.array) (id / 32) ||| Bitmap.mask (id % 32))).goto t
        (.marked retry id)) := by
    rw [SharedIdPool.run]
    simp only [storeWord, goto, update_idem]
    rfl
  have hend : ((s.storeWord s.array (id / 32) (word (s.words s.array) (id / 32) ||| Bitmap.mask (id % 32))).goto t
      (.marked retry id)).run t (.marked retry id) = some (s.allocated t id (if retry then s.lock else none)) := by
    rw [SharedIdPool.run, allocated, storeWord, set_word (s.words s.array) (id / 32) (· ||| Bitmap.mask (id % 32))]
    simp only [goto, update_idem]
  exact .run hload (.run hword (.run hstore (.run hend (.refl t _))))

theorem shows_allocated {lock : Option Nat} (h : s.Shows p) :
    (s.allocated t id lock).Shows { p with idMap := p.idMap.setBit id } where
  array := by
    have hself : (s.allocated t id lock).words (s.allocated t id lock).array =
        (s.words s.array).modify (id / 32) (· ||| Bitmap.mask (id % 32)) := update_self ..
    rw [hself, h.array]
    rfl
  arraySize := h.arraySize
  size := h.size
  maxSize := h.maxSize
  expandSize := h.expandSize
  fresh := h.fresh

/-! ## The expansion -/

/-- The state in which `i` words are copied to the new array. -/
def copying (s : SharedIdPool) (newSize i : Nat) : SharedIdPool :=
  { s with
    words := update s.words s.next ((s.words s.array).take i ++ List.replicate (newSize / 32 - i) 0)
    next := s.next + 1 }

/-- The state in which the new array is in its place. -/
def grown (s : SharedIdPool) (newSize : Nat) : SharedIdPool :=
  { s.copying newSize s.arraySize with
    freed := s.array :: s.freed
    arraySize := newSize / 32
    array := s.next
    size := newSize
    lock := none }

theorem alone_copy {newSize : Nat} (hfresh : s.array < s.next) (hlength : (s.words s.array).length = s.arraySize)
    (hle : s.arraySize ≤ newSize / 32) (hi : i + n = s.arraySize) :
    Alone t ((s.copying newSize i).goto t (.copy newSize s.next i))
      ((s.copying newSize s.arraySize).goto t (.copy newSize s.next s.arraySize)) := by
  induction n generalizing i with
  | zero =>
    obtain rfl : i = s.arraySize := hi
    exact .refl t _
  | succ n ih =>
    refine .run ?_ (ih (i := i + 1) (by omega))
    have hlt : i < ((s.copying newSize i).goto t (.copy newSize s.next i)).arraySize := by
      change i < s.arraySize
      omega
    have hold : ((s.copying newSize i).goto t (.copy newSize s.next i)).words s.array = s.words s.array :=
      update_of_ne (by omega) ..
    have hnew : ((s.copying newSize i).goto t (.copy newSize s.next i)).words s.next =
        (s.words s.array).take i ++ List.replicate (newSize / 32 - (i + 1) + 1) 0 := by
      have hself : (s.copying newSize i).words s.next = (s.words s.array).take i ++ List.replicate (newSize / 32 - i) 0 :=
        update_self ..
      rw [show newSize / 32 - (i + 1) + 1 = newSize / 32 - i by omega]
      exact hself
    have hset := set_copy (n := newSize / 32 - (i + 1)) (by omega : i < (s.words s.array).length)
    have harray : ((s.copying newSize i).goto t (.copy newSize s.next i)).array = s.array := rfl
    rw [SharedIdPool.run, if_pos hlt, storeWord, harray, hold, hnew, hset, copying, copying]
    simp only [goto, update_idem]

/-- The pool grows, and its lock is released. -/
theorem alone_expand (hfresh : s.array < s.next) (hlength : (s.words s.array).length = s.arraySize)
    (hmax : s.size ≠ s.maxSize) (hgrows : min (s.size + s.expandSize) s.maxSize ≠ s.size)
    (hle : s.arraySize ≤ min (s.size + s.expandSize) s.maxSize / 32) : Alone t (s.goto t .full)
      ((s.grown (min (s.size + s.expandSize) s.maxSize)).goto t (.search true 0)) := by
  set newSize := min (s.size + s.expandSize) s.maxSize with hnewSize
  have hfull : (s.goto t .full).run t .full = some ((s.copying newSize 0).goto t (.copy newSize s.next 0)) := by
    have hfields : (s.goto t .full).size = s.size ∧ (s.goto t .full).maxSize = s.maxSize ∧
        (s.goto t .full).expandSize = s.expandSize := ⟨rfl, rfl, rfl⟩
    rw [SharedIdPool.run, hfields.1, hfields.2.1, hfields.2.2, ← hnewSize, if_neg hmax, if_neg hgrows, copying]
    simp only [goto, update_idem, List.take_zero, List.nil_append, Nat.sub_zero]
  have hcopied : ((s.copying newSize s.arraySize).goto t (.copy newSize s.next s.arraySize)).run t
      (.copy newSize s.next s.arraySize) = some ((s.copying newSize s.arraySize).goto t (.freeOld newSize s.next)) := by
    rw [SharedIdPool.run, goto_goto]
    exact if_neg (Nat.lt_irrefl s.arraySize)
  refine .run hfull ((alone_copy hfresh hlength hle (Nat.zero_add _)).trans (.run hcopied ?_))
  have hfreed : ((s.copying newSize s.arraySize).goto t (.freeOld newSize s.next)).run t (.freeOld newSize s.next) =
      some ({ s.copying newSize s.arraySize with freed := s.array :: s.freed }.goto t (.setArraySize newSize s.next)) := by
    rw [SharedIdPool.run, goto_goto]
    rfl
  refine .run hfreed (.run (u := { s.copying newSize s.arraySize with
    freed := s.array :: s.freed, arraySize := newSize / 32 }.goto t (.setArray newSize s.next)) ?_ ?_)
  · rw [SharedIdPool.run, goto_goto]
    rfl
  refine .run (u := { s.copying newSize s.arraySize with
    freed := s.array :: s.freed, arraySize := newSize / 32, array := s.next }.goto t (.setSize newSize)) ?_ ?_
  · rw [SharedIdPool.run, goto_goto]
    rfl
  refine .run (u := { s.copying newSize s.arraySize with
    freed := s.array :: s.freed, arraySize := newSize / 32, array := s.next, size := newSize }.goto t .expanded) ?_ ?_
  · rw [SharedIdPool.run, goto_goto]
    rfl
  refine .head (a := .expanded t true) ?_ rfl (.refl t _)
  rw [step]
  refine (if_pos ?_).trans ?_
  · exact update_self ..
  · rw [if_pos rfl, goto_goto]
    rfl

theorem shows_grown (newSize : Nat) (h : s.Shows p) (hsize : newSize = min (p.size + p.expandSize) p.maxSize) :
    (s.grown newSize).Shows p.expand where
  array := by
    have hself : (s.grown newSize).words (s.grown newSize).array =
        (s.words s.array).take s.arraySize ++ List.replicate (newSize / 32 - s.arraySize) 0 := update_self ..
    rw [hself, h.array, h.arraySize, hsize]
    rfl
  arraySize := by
    change newSize / 32 = _
    rw [hsize]
    rfl
  size := hsize
  maxSize := h.maxSize
  expandSize := h.expandSize
  fresh := Nat.lt_succ_self s.next

/-! ## The calls -/

/-- When the size cannot grow, neither does the set of free ids. -/
theorem grows_of_allocate {r : Nat × Bitmap} (hwhole : p.Whole) (hnone : p.idMap.allocateFirstFree = none)
    (hsome : p.expand.idMap.allocateFirstFree = some r) : min (p.size + p.expandSize) p.maxSize ≠ p.size := by
  intro hsame
  obtain ⟨id, b⟩ := r
  obtain ⟨hfind, -⟩ := Bitmap.allocateFirstFree_eq_some hsome
  obtain ⟨hlt, hfree, -⟩ := Bitmap.findFirstFree_eq_some hfind
  have harray : p.expand.idMap.arraySize = p.idMap.arraySize := by
    change min (p.size + p.expandSize) p.maxSize / 32 = _
    rw [hsame, hwhole.arraySize]
  have hused : p.used id = true := Bitmap.findFirstFree_eq_none (Bitmap.allocateFirstFree_eq_none hnone) (by omega)
  have hunused : p.expand.used id = false := hfree
  rw [IdPool.used_expand hwhole, hused] at hunused
  cases hunused

theorem findSome_scanWord (b : Bitmap) : (List.range' 0 b.arraySize).findSome? b.scanWord = b.findFirstFree := by
  rw [Bitmap.findFirstFree_eq, List.range_eq_range']

/-- `id_pool_allocate_id`, when no other thread accesses the pool. -/
theorem allocate_alone (h : s.Shows p) (hwhole : p.Whole) (ht : t < s.threads) (hidle : s.call t = .idle)
    (hlock : s.lock = none) (halloc : p.allocateId = some (id, p')) : ∃ s', Alone t s s' ∧ s'.Shows p' ∧
      s'.threads = s.threads ∧ s'.lock = none ∧ s'.call = s.call ∧ s'.owned = update s.owned t (id :: s.owned t) := by
  set s₀ : SharedIdPool := { s with lock := some t } with hs₀
  have h₀ : s₀.Shows p := ⟨⟨h.array, h.arraySize⟩, h.size, h.maxSize, h.expandSize, h.fresh⟩
  have hstart : s.step (.allocate t) = some (s₀.goto t (.search false 0)) := by
    rw [step, if_pos ⟨ht, hidle, hlock⟩]
    rfl
  have hcall : update s.call t .idle = s.call := update_eq_self_iff.mpr hidle.symm
  have hsearch := alone_search t false h₀.toShowsBits (Nat.zero_add p.idMap.arraySize)
  rw [findSome_scanWord] at hsearch
  rw [IdPool.allocateId] at halloc
  cases hfirst : p.idMap.allocateFirstFree with
  | some r =>
    rw [hfirst] at halloc
    obtain ⟨hfind, hset⟩ := Bitmap.allocateFirstFree_eq_some (show p.idMap.allocateFirstFree = some (r.1, r.2) from hfirst)
    rw [hfind] at hsearch
    cases halloc
    rw [hset]
    refine ⟨s₀.allocated t r.1 none, .head hstart rfl (hsearch.trans ?_), shows_allocated h₀, rfl, rfl, hcall, rfl⟩
    exact alone_mark false
  | none =>
    -- The lock is released behind the expansion, and the second search starts over.
    rw [hfirst] at halloc
    simp only at halloc
    split_ifs at halloc with hmax
    obtain ⟨r, hsecond, heq⟩ := Option.map_eq_some_iff.mp halloc
    obtain ⟨hfind, hset⟩ := Bitmap.allocateFirstFree_eq_some
      (show p.expand.idMap.allocateFirstFree = some (r.1, r.2) from hsecond)
    rw [Bitmap.allocateFirstFree_eq_none hfirst] at hsearch
    have hend : (s₀.goto t (.search false p.idMap.arraySize)).run t (.search false p.idMap.arraySize) =
        some (s₀.goto t .full) := by
      rw [SharedIdPool.run, goto_goto, ← h.arraySize]
      exact congrArg (fun c => some (s₀.goto t c)) (if_neg (Nat.lt_irrefl s.arraySize))
    have hgrows := grows_of_allocate hwhole hfirst hsecond
    have hlength : (s₀.words s₀.array).length = s₀.arraySize := by
      rw [h₀.array, h₀.arraySize]
      exact Nat.le_antisymm hwhole.array p.idMap.size_le
    have hle : s₀.arraySize ≤ min (s₀.size + s₀.expandSize) s₀.maxSize / 32 := by
      rw [h₀.arraySize, hwhole.arraySize, h₀.size, h₀.maxSize, h₀.expandSize]
      have hbound := hwhole.bound
      exact Nat.div_le_div_right (by omega)
    have hexpand := alone_expand (t := t) h₀.fresh hlength (by rw [h₀.size, h₀.maxSize]; exact hmax)
      (by rw [h₀.size, h₀.maxSize, h₀.expandSize]; exact hgrows) hle
    have hshows := shows_grown (min (s₀.size + s₀.expandSize) s₀.maxSize) h₀
      (by rw [h₀.size, h₀.maxSize, h₀.expandSize])
    have hretry := alone_search t true hshows.toShowsBits (Nat.zero_add p.expand.idMap.arraySize)
    rw [findSome_scanWord, hfind] at hretry
    cases heq
    rw [hset]
    refine ⟨_, .head hstart rfl (hsearch.trans (.run hend (hexpand.trans (hretry.trans (alone_mark true))))), ?_, rfl, rfl,
      hcall, rfl⟩
    exact shows_allocated hshows

/-- `id_pool_free_id`, when no other thread accesses the pool. -/
theorem free_alone (h : s.Shows p) (ht : t < s.threads) (hidle : s.call t = .idle) (hid : id ∈ s.owned t) :
    ∃ s', Alone t s s' ∧ s'.Shows (p.freeId id) ∧ s'.threads = s.threads ∧ s'.lock = s.lock ∧ s'.call = s.call ∧
      s'.owned = update s.owned t ((s.owned t).erase id) := by
  set s₀ : SharedIdPool := { s with owned := update s.owned t ((s.owned t).erase id) } with hs₀
  have hstart : s.step (.free t id) = some (s₀.goto t (.clear id .array)) := by
    rw [step, if_pos ⟨ht, hidle, hid⟩]
    rfl
  have hload : (s₀.goto t (.clear id .array)).run t (.clear id .array) = some (s₀.goto t (.clear id (.load s₀.array))) := by
    rw [SharedIdPool.run, goto_goto]
    rfl
  have hword : (s₀.goto t (.clear id (.load s₀.array))).run t (.clear id (.load s₀.array)) =
      some (s₀.goto t (.clear id (.store s₀.array (word (s.words s.array) (id / 32))))) := by
    rw [SharedIdPool.run, goto_goto]
    rfl
  refine ⟨(s₀.storeWord s.array (id / 32) (word (s.words s.array) (id / 32) &&& ~~~Bitmap.mask (id % 32))).goto t .idle,
    .head hstart rfl (.run hload (.run hword (.run ?_ (.refl t _)))), ⟨⟨?_, h.arraySize⟩, h.size, h.maxSize, h.expandSize,
    h.fresh⟩, rfl, rfl, update_eq_self_iff.mpr hidle.symm, rfl⟩
  · rw [SharedIdPool.run]
    simp only [storeWord, goto, update_idem]
    rfl
  · have hself : (s₀.storeWord s.array (id / 32) (word (s.words s.array) (id / 32) &&& ~~~Bitmap.mask (id % 32))).words
        s.array = (s.words s.array).set (id / 32) (word (s.words s.array) (id / 32) &&& ~~~Bitmap.mask (id % 32)) :=
      update_self ..
    change (s₀.storeWord s.array (id / 32) (word (s.words s.array) (id / 32) &&& ~~~Bitmap.mask (id % 32))).words s.array = _
    rw [hself, set_word (s.words s.array) (id / 32) (· &&& ~~~Bitmap.mask (id % 32)), h.array]
    rfl

/-! ## One call after the other -/

/-- A call of a thread. -/
inductive IdUse where
  | allocate (t : Nat)
  | free (t id : Nat)

/-- The thread that makes the call. -/
def IdUse.thread : IdUse → Nat
  | allocate t | free t _ => t

/-- A pool whose calls are single steps, and the ids that its threads own. -/
def serialStep (x : IdPool × (Nat → List Nat)) : IdUse → Option (IdPool × (Nat → List Nat))
  | .allocate t => x.1.allocateId.map fun r => (r.2, update x.2 t (r.1 :: x.2 t))
  | .free t id => if id ∈ x.2 t then some (x.1.freeId id, update x.2 t ((x.2 t).erase id)) else none

/-- Between two calls. -/
structure Serial (s : SharedIdPool) (threads : Nat) (x : IdPool × (Nat → List Nat)) : Prop where
  shows : s.Shows x.1
  whole : x.1.Whole
  threads : s.threads = threads
  idle : ∀ t, s.call t = .idle
  lock : s.lock = none
  owned : s.owned = x.2

theorem serial_start {threads size maxSize : Nat} (hsize : size ≤ maxSize) :
    (start threads size maxSize).Serial threads (IdPool.init size maxSize, fun _ => []) where
  shows := by
    refine ⟨⟨?_, rfl⟩, rfl, rfl, rfl, Nat.zero_lt_one⟩
    simp [start, IdPool.init, Bitmap.init, Bitmap.clearWords]
  whole := IdPool.init_whole hsize
  threads := rfl
  idle _ := rfl
  lock := rfl
  owned := rfl

/-- A call that is not interrupted is a step of the serial pool. -/
theorem Serial.step {threads : Nat} {x y : IdPool × (Nat → List Nat)} {call : IdUse} (h : s.Serial threads x)
    (ht : call.thread < threads) (hstep : serialStep x call = some y) :
    ∃ s', Alone call.thread s s' ∧ s'.Serial threads y := by
  rw [← h.threads] at ht
  cases call with
  | allocate t =>
    obtain ⟨r, halloc, rfl⟩ := Option.map_eq_some_iff.mp hstep
    obtain ⟨s', halone, hshows, hthreads, hlock, hcall, howned⟩ := allocate_alone h.shows h.whole ht (h.idle t) h.lock
      (show x.1.allocateId = some (r.1, r.2) from halloc)
    refine ⟨s', halone, hshows, (IdPool.allocateId_spec h.whole halloc).1, hthreads.trans h.threads, fun u => ?_, hlock, ?_⟩
    · rw [hcall]
      exact h.idle u
    · rw [howned, h.owned]
      rfl
  | free t id =>
    rw [serialStep] at hstep
    split_ifs at hstep with hid
    cases hstep
    rw [← h.owned] at hid
    obtain ⟨s', halone, hshows, hthreads, hlock, hcall, howned⟩ := free_alone h.shows ht (h.idle t) hid
    refine ⟨s', halone, hshows, IdPool.whole_freeId h.whole, hthreads.trans h.threads, fun u => ?_, hlock.trans h.lock, ?_⟩
    · rw [hcall]
      exact h.idle u
    · rw [howned, h.owned]
      rfl

/-- Calls that are made one after the other find the ids that the serial pool finds. -/
theorem Serial.run {threads : Nat} {x y : IdPool × (Nat → List Nat)} {calls : List IdUse} (h : s.Serial threads x)
    (ht : ∀ call ∈ calls, call.thread < threads) (hrun : Run (Steps serialStep) x calls y) :
    ∃ as s', Run (Steps SharedIdPool.step) s as s' ∧ s'.Serial threads y := by
  induction hrun generalizing s with
  | nil x => exact ⟨[], s, .nil s, h⟩
  | cons head tail ih =>
    obtain ⟨u, ⟨as, -, hfirst⟩, hu⟩ := h.step (ht _ (List.mem_cons_self ..)) head
    obtain ⟨as', s', hrest, hs'⟩ := ih hu fun call hcall => ht call (List.mem_cons_of_mem _ hcall)
    exact ⟨as ++ as', s', hfirst.append hrest, hs'⟩

end SharedIdPool

end LuckOS
