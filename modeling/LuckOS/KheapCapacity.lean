import LuckOS.KheapInvariant
import LuckOS.KheapRoom

/-!
# Runs with a full index

Allocations and releases go on whatever they log. The index of `KHEAP_INDEX_NUM` entries lists
all holes in every state of a run exactly if it has room in every step of it. The number of
holes is not limited by this: half of the blocks of one byte may be released.
-/

namespace LuckOS.Kheap

open ByteMemory Outcome Traced Tiling Runs

/-- The heap with the blocks that are held, all that has been logged, and the check that failed. -/
structure CallState where
  heap : Kheap
  held : List Nat
  log : List Event
  stopped : Option Stop

namespace CallState

def allocate (s : CallState) (size : Nat) (align : Bool) : CallState :=
  let call := s.heap.kmallocImpl size align
  match call.outcome with
  | .ok (ptr, heap) => ⟨heap, ptr :: s.held, s.log ++ call.events, none⟩
  | .error e => { s with log := s.log ++ call.events, stopped := some e }

def release (s : CallState) (ptr : Nat) : CallState :=
  let call := s.heap.free ptr
  match call.outcome with
  | .ok heap => ⟨heap, s.held.erase ptr, s.log ++ call.events, none⟩
  | .error e => { s with log := s.log ++ call.events, stopped := some e }

/-- The steps of the users of the heap. The requests are small, and the heap stays below its
maximum. -/
def step (s : CallState) : HeapAction → Option CallState
  | .alloc size align =>
    if s.stopped = none ∧ 0 < size ∧ s.heap.endAddress + 2 * (size + 4113) ≤ s.heap.maxAddress then some (s.allocate size align)
    else none
  | .free ptr => if s.stopped = none ∧ ptr ∈ s.held ∧ Fenced s.heap then some (s.release ptr) else none
  | .store ptr addr byte =>
    if ptr ∈ s.held ∧ ptr ≤ addr ∧ addr < ptr + sizeAt s.heap.mem (ptr - 9) then
      some { s with heap := { s.heap with mem := write8 s.heap.mem addr byte } }
    else none
  | .outside mem =>
    some { s with heap := { s.heap with mem := fun a =>
      if s.heap.startAddress ≤ a ∧ a < s.heap.endAddress then s.heap.mem a else mem a } }

/-- The index has room for the holes of the step. -/
def Room (s : CallState) : HeapAction → Prop
  | .alloc size align => AllocRoom s.heap size align
  | .free ptr => FreeRoom s.heap ptr
  | _ => True

/-- No hole has been refused, every hole is in the index, and no check has failed. -/
structure Complete (s : CallState) : Prop where
  kept : .refused ∉ s.log
  running : s.stopped = none
  laid : ∃ bs, Laid s.heap bs ∧ s.held.Perm (live bs)

end CallState

variable {h h' : Kheap} {m m' : Memory} {b c : Block} {bs bs' xs ys : List Block} {s t : CallState} {size ptr : Nat}
  {align : Bool}

/-! ## The size of the index and the end of the heap -/

/-- The index fits in its array, and the heap ends at a page boundary. -/
structure Shaped (h : Kheap) : Prop where
  capacity : h.index.length ≤ kheapIndexNum
  page : h.endAddress % 4096 = 0

theorem insertIndex_shaped (hs : Shaped h) (header : Nat) : Ends (fun _ => True) (h.insertIndex header) Shaped := by
  refine (insertIndex_ends h header).mono ?_
  rintro _ ⟨index, rfl, hroom, hfull⟩
  have hcap := hs.capacity
  refine ⟨?_, hs.page⟩
  rcases Nat.lt_or_ge h.index.length kheapIndexNum with hlt | hge
  · rw [(hroom hlt).length_eq, List.length_cons]
    exact hlt
  · rw [hfull hge]
    exact hcap

theorem removeIndex_shaped (hs : Shaped h) (header : Nat) (site : Stop) :
    Ends (fun _ => True) (h.removeIndex header site) Shaped := by
  refine (removeIndex_ends h fun _ => trivial).mono ?_
  rintro _ ⟨-, rfl⟩
  exact ⟨Nat.le_trans (List.length_erase_le ..) hs.capacity, hs.page⟩

theorem Shaped.withMem (hs : Shaped h) (m : Memory) : Shaped { h with mem := m } := ⟨hs.capacity, hs.page⟩

theorem expand_shaped (hs : Shaped h) (n : Nat) : Ends (fun _ => True) (h.expand n) (fun r => Shaped r.2) := by
  have hpage := hs.page
  have halign : alignToPage n % 4096 = 0 := by
    rw [alignToPage, add32, pageSize]
    split_ifs <;> omega
  rw [expand]
  split_ifs
  · exact .pure hs
  · refine addrAdd_ends (.check_allowed (fun _ => trivial) fun _ => .pure ⟨hs.capacity, ?_⟩)
    simp only [add32]
    omega

theorem extend_shaped (hs : Shaped h) (size : Nat) : Ends (fun _ => True) (h.extend size) Shaped := by
  refine (expand_shaped hs _).bind ?_
  rintro ⟨n, h'⟩ hs'
  simp only
  split_ifs
  · refine (ends_any _).bind fun m _ => (removeIndex_shaped (hs'.withMem m) _ _).bind fun h'' hs'' => ?_
    exact insertIndex_shaped hs'' _
  · exact (ends_any _).bind fun m _ => insertIndex_shaped (hs'.withMem m) _

theorem cutFront_shaped (hs : Shaped h) (header blockSize allocPos : Nat) :
    Ends (fun _ => True) (h.cutFront header blockSize allocPos) (fun r => Shaped r.2.2) := by
  simp only [cutFront]
  split_ifs
  · refine .check_allowed (fun _ => trivial) fun _ => (ends_any _).bind fun m _ => ?_
    exact (insertIndex_shaped (hs.withMem m) _).bind fun h' hs' => .pure hs'
  · exact .pure hs

theorem takeBlock_shaped (hs : Shaped h) (header blockSize size : Nat) :
    Ends (fun _ => True) (h.takeBlock header blockSize size) Shaped := by
  refine .check_allowed (fun _ => trivial) fun _ => ?_
  generalize sub32 blockSize size = remainSize
  by_cases hsmall : remainSize ≤ blockMetaSize
  · simp only [hsmall, if_true, Nat.lt_irrefl, if_false]
    exact (ends_any _).bind fun m _ => .pure (hs.withMem m)
  · have hrest : 0 < remainSize := Nat.pos_of_ne_zero fun hzero => hsmall (hzero ▸ Nat.zero_le _)
    simp only [hsmall, hrest, if_true, if_false]
    refine (ends_any _).bind fun m _ => .check_allowed (fun _ => trivial) fun _ => addrAdd_ends ((ends_any _).bind fun m' _ => ?_)
    exact insertIndex_shaped (hs.withMem m') _

theorem useHole_shaped (hs : Shaped h) (size : Nat) (align : Bool) (iterator allocPos : Nat) :
    Ends (fun _ => True) (h.useHole size align iterator allocPos) (fun r => Shaped r.2) := by
  have hremoved : Shaped { h with index := (OrderedArray.remove h.index iterator).2 } := by
    refine ⟨?_, hs.page⟩
    have hcap := hs.capacity
    simp only [OrderedArray.remove]
    split_ifs
    · exact hcap
    · exact Nat.le_trans (List.length_eraseIdx_le ..) hcap
  have htake : ∀ {h' : Kheap} (header blockSize : Nat), Shaped h' →
      Ends (fun _ => True) (h'.takeBlock header blockSize size >>= fun h => pure (allocPos, h)) (fun r => Shaped r.2) :=
    fun header blockSize hs' => (takeBlock_shaped hs' header blockSize size).bind fun h'' hs'' => .pure hs''
  simp only [useHole]
  refine .check_allowed (fun _ => trivial) fun _ => ?_
  cases align with
  | true =>
    simp only [if_true]
    exact (cutFront_shaped hremoved _ _ _).bind fun r hr => htake r.1 r.2.1 hr
  | false =>
    simp only [Bool.false_eq_true, if_false, Traced.pure_bind]
    exact htake _ _ hremoved

theorem alloc_shaped (rounds : Nat) (hs : Shaped h) (size : Nat) (align : Bool) :
    Ends (fun _ => True) (alloc rounds h size align) (fun r => Shaped r.2) := by
  induction rounds generalizing h with
  | zero => exact .stop trivial
  | succ rounds ih =>
    refine .check_allowed (fun _ => trivial) fun _ => (ends_any _).bind fun r _ => ?_
    cases r with
    | none => exact (extend_shaped hs size).bind fun h' hs' => ih hs'
    | some found => exact useHole_shaped hs size align _ _

theorem kmallocImpl_shaped (hs : Shaped h) (size : Nat) (align : Bool) :
    Ends (fun _ => True) (h.kmallocImpl size align) (fun r => Shaped r.2) := by
  rw [kmallocImpl]
  split_ifs
  · exact .pure hs
  · exact (alloc_shaped _ hs size align).bind fun r hr => .check_allowed (fun _ => trivial) fun _ => .pure hr

theorem mergeRight_shaped (hs : Shaped h) (header rightHeader : Nat) :
    Ends (fun _ => True) (h.mergeRight header rightHeader) Shaped := by
  rw [mergeRight]
  split_ifs
  · exact (ends_any _).bind fun m _ => removeIndex_shaped (hs.withMem m) _ _
  · exact .pure hs

theorem mergeLeft_shaped (hs : Shaped h) (header : Nat) :
    Ends (fun _ => True) (h.mergeLeft header) (fun r => Shaped r.2) := by
  simp only [mergeLeft]
  split_ifs
  · exact (ends_any _).bind fun m _ => (removeIndex_shaped (hs.withMem m) _ _).bind fun h' hs' => .pure hs'
  · exact .pure hs

theorem free_shaped (hs : Shaped h) (ptr : Nat) : Ends (fun _ => True) (h.free ptr) Shaped := by
  rw [free]
  split_ifs
  · exact .pure hs
  · refine addrAdd_ends (.check_allowed (fun _ => trivial) fun _ => .check_allowed (fun _ => trivial) fun _ => addrAdd_ends ?_)
    refine (mergeRight_shaped (hs.withMem _) _ _).bind fun h₁ hs₁ => (mergeLeft_shaped hs₁ _).bind fun r hr => ?_
    exact insertIndex_shaped hr _

theorem initKheap_shaped (m : Memory) : Ends (fun _ => True) (initKheap m) Shaped := by
  refine .check_allowed (fun _ => trivial) fun _ => .check_allowed (fun _ => trivial) fun _ => (ends_any _).bind fun m _ => ?_
  have hpage : (kheapStartAddr + kheapMinSize) % 4096 = 0 := by decide
  exact insertIndex_shaped ⟨Nat.zero_le _, hpage⟩ _

/-! ## Calls that find room -/

theorem kmallocImpl_logs (hl : Laid h bs) (hs : Shaped h) (hpos : 0 < size)
    (hroom : h.endAddress + 2 * (size + 4113) ≤ h.maxAddress) :
    Logs .refused (AllocRoom h size align) (h.kmallocImpl size align) := by
  rw [kmallocImpl, if_neg (by omega)]
  have hlogs : Logs .refused (AllocRoom h size align) (alloc 0x100000 h size align) :=
    alloc_logs 0xFFFFD hl hs.page hs.capacity hpos hroom
  refine hlogs.then_silent fun r => ?_
  exact events_check_bind fun _ => rfl

/-- Room for the holes of a request means that its expansion is not refused. -/
theorem AllocRoom.exists_hole (hl : Laid h bs) (hsize : size ≤ 0x1F380000) (hroom : AllocRoom h size align) :
    (∃ b ∈ bs, b.hole = true ∧ ∃ pos, Fits b size align pos) ∨
      (∃ b, bs.getLast? = some b ∧ b.hole = true) ∨ h.index.length < kheapIndexNum := by
  have ht := hl.tiled
  have hends : Ends (fun _ => False) (h.findHole size align) _ :=
    findHole_ends ht (by omega) fun _ b hb _ => ht.noWrappedFit hsize hb
  obtain ⟨r, hout, hsome, -⟩ := hends.exists_ok
  cases r with
  | some found =>
    obtain ⟨-, b, hb, -, hhole, -, hfits, -⟩ := hsome found.1 found.2 rfl
    exact .inl ⟨b, hb, hhole, _, hfits⟩
  | none =>
    obtain ⟨xs, b, rfl, -⟩ := ht.last_block
    obtain ⟨-, hheader, -, -⟩ := ht.last_header
    cases hhole : b.hole with
    | true => exact .inr (.inl ⟨b, List.getLast?_concat, hhole⟩)
    | false =>
      simp only [AllocRoom, hout, hheader, (ht.stored b (by simp)).hole, hhole] at hroom
      rw [if_neg (by simp)] at hroom
      exact .inr (.inr hroom.1)

theorem kmallocImpl_returns (hl : Laid h bs) (hs : Shaped h) (hpos : 0 < size)
    (hroom : h.endAddress + 2 * (size + 4113) ≤ h.maxAddress) (hindex : AllocRoom h size align) :
    ∃ p h', h.kmallocImpl size align = ⟨[], .ok (p, h')⟩ := by
  have hmax := hl.max
  rw [kheapMaxAddr] at hmax
  have hlower := hl.tiles.le
  rw [hl.start, kheapStartAddr, kheapIndexNum] at hlower
  have hcond := hindex.exists_hole hl (by omega)
  obtain ⟨p, h', hp, hrounds⟩ := returnsWithin_of_ends (alloc_returns hl hs.page hs.capacity hpos hroom hcond)
  have hout : (h.kmallocImpl size align).outcome = .ok (p, h') := by
    rw [kmallocImpl, if_neg (by omega), outcome_bind_of_ok (hrounds 0x100000 (by cases align <;> decide))]
    simp only [check_eq_pure hp]
    rfl
  have hevents := (kmallocImpl_logs hl hs hpos hroom).quiet hindex
  exact ⟨p, h', congrArg₂ Traced.mk hevents hout⟩

theorem free_returns (hl : Laid h bs) (hs : Shaped h) (hfenced : Fenced h) (hptr : ptr ∈ live bs) (hindex : FreeRoom h ptr) :
    ∃ h', h.free ptr = ⟨[], .ok h'⟩ := by
  have hevents := (free_logs hl hfenced hptr hs.capacity).quiet hindex
  obtain ⟨h', hout, -⟩ := ((free_quiet (A := fun _ => False) hl hfenced hptr).ends hevents).exists_ok
  exact ⟨h', congrArg₂ Traced.mk hevents hout⟩

namespace CallState

/-- What holds along a run in which the index has had room in every step. -/
structure Sound (s : CallState) : Prop where
  laid : ∃ bs, Laid s.heap bs ∧ s.held.Perm (live bs)
  shaped : Shaped s.heap
  running : s.stopped = none
  log : s.log = []

theorem Sound.complete (hs : s.Sound) : s.Complete := ⟨by rw [hs.log]; exact List.not_mem_nil, hs.running, hs.laid⟩

theorem allocate_of_returns {p : Nat} (hcall : s.heap.kmallocImpl size align = ⟨[], .ok (p, h')⟩) :
    s.allocate size align = ⟨h', p :: s.held, s.log, none⟩ := by
  simp only [allocate, hcall, List.append_nil]

theorem release_of_returns (hcall : s.heap.free ptr = ⟨[], .ok h'⟩) :
    s.release ptr = ⟨h', s.held.erase ptr, s.log, none⟩ := by
  simp only [release, hcall, List.append_nil]

theorem allocate_log (s : CallState) (size : Nat) (align : Bool) :
    (s.allocate size align).log = s.log ++ (s.heap.kmallocImpl size align).events := by
  rw [allocate]
  split <;> rfl

theorem release_log (s : CallState) (ptr : Nat) : (s.release ptr).log = s.log ++ (s.heap.free ptr).events := by
  rw [release]
  split <;> rfl

/-- A step for which the index has room keeps all holes in the index. -/
theorem Sound.step {a : HeapAction} (hs : s.Sound) (hroom : s.Room a) (hstep : s.step a = some t) : t.Sound := by
  obtain ⟨bs, hl, hheld⟩ := hs.laid
  cases a with
  | alloc size align =>
    simp only [CallState.step] at hstep
    split_ifs at hstep with hcond
    obtain ⟨-, hpos, hmax⟩ := hcond
    obtain ⟨p, h', hcall⟩ := kmallocImpl_returns hl hs.shaped hpos hmax hroom
    obtain ⟨bs', ha⟩ := kmallocImpl_spec hl hpos hcall
    have hshaped := (kmallocImpl_shaped hs.shaped size align).ensures
    rw [hcall] at hshaped
    rw [allocate_of_returns hcall] at hstep
    obtain rfl := Option.some.inj hstep
    exact ⟨⟨bs', ha.laid, (hheld.cons p).trans ha.live.symm⟩, hshaped, rfl, hs.log⟩
  | free ptr =>
    simp only [CallState.step] at hstep
    split_ifs at hstep with hcond
    obtain ⟨-, hptr, hfenced⟩ := hcond
    have hlive := hheld.mem_iff.mp hptr
    obtain ⟨h', hcall⟩ := free_returns hl hs.shaped hfenced hlive hroom
    obtain ⟨bs', hf⟩ := free_spec hl hfenced hlive hcall
    have hshaped := (free_shaped hs.shaped ptr).ensures
    rw [hcall] at hshaped
    rw [release_of_returns hcall] at hstep
    obtain rfl := Option.some.inj hstep
    refine ⟨⟨bs', hf.laid, ?_⟩, hshaped, rfl, hs.log⟩
    have hperm : (ptr :: s.held.erase ptr).Perm (ptr :: live bs') :=
      ((List.perm_cons_erase hptr).symm.trans hheld).trans hf.live.symm
    exact (List.perm_cons ptr).mp hperm
  | store ptr addr byte =>
    simp only [CallState.step] at hstep
    split_ifs at hstep with hcond
    obtain ⟨hptr, hlo, hhi⟩ := hcond
    obtain rfl := Option.some.inj hstep
    exact ⟨⟨bs, hl.store (hheld.mem_iff.mp hptr) hlo hhi, hheld⟩, hs.shaped.withMem _, hs.running, hs.log⟩
  | outside mem =>
    obtain rfl := Option.some.inj hstep
    refine ⟨⟨bs, hl.withMem fun b hb => ?_, hheld⟩, hs.shaped.withMem _, hs.running, hs.log⟩
    have hbounds := hl.tiles.mem hb
    exact (hl.stored b hb).congr fun a hlo hhi => if_pos ⟨by omega, by omega⟩

/-- A step without room for its holes has one of them refused. -/
theorem Sound.room_of_complete {a : HeapAction} (hs : s.Sound) (hstep : s.step a = some t) (ht : t.Complete) : s.Room a := by
  obtain ⟨bs, hl, hheld⟩ := hs.laid
  have hkept := ht.kept
  cases a with
  | alloc size align =>
    simp only [CallState.step] at hstep
    split_ifs at hstep with hcond
    obtain rfl := Option.some.inj hstep
    rw [allocate_log, hs.log, List.nil_append] at hkept
    by_contra hroom
    exact hkept ((kmallocImpl_logs hl hs.shaped hcond.2.1 hcond.2.2).logged hroom)
  | free ptr =>
    simp only [CallState.step] at hstep
    split_ifs at hstep with hcond
    obtain rfl := Option.some.inj hstep
    rw [release_log, hs.log, List.nil_append] at hkept
    by_contra hroom
    exact hkept ((free_logs hl hcond.2.2 (hheld.mem_iff.mp hcond.2.1) hs.shaped.capacity).logged hroom)
  | store ptr addr byte => trivial
  | outside mem => trivial

theorem sound_of_init {mem : Memory} {heap : Kheap} (hinit : initKheap mem = ⟨[], .ok heap⟩) :
    Sound ⟨heap, [], [], none⟩ := by
  have hquiet := (initKheap_quiet (A := fun _ => False) mem).ensures (by rw [hinit])
  have hshaped := (initKheap_shaped mem).ensures
  rw [hinit] at hquiet hshaped
  obtain ⟨bs, hl, hlive, -⟩ := hquiet
  exact ⟨⟨bs, hl, by rw [hlive]⟩, hshaped, rfl, rfl⟩

end CallState

/-- In a run of calls no hole is dropped exactly if the index has room in every step. -/
theorem index_complete_iff {mem : Memory} {heap : Kheap} (hinit : initKheap mem = ⟨[], .ok heap⟩) {actions : List HeapAction}
    (hrun : Run (Steps CallState.step) ⟨heap, [], [], none⟩ actions s) :
    (∀ as t, as <+: actions → Run (Steps CallState.step) ⟨heap, [], [], none⟩ as t → t.Complete) ↔
      Run (Guarded CallState.Room (Steps CallState.step)) ⟨heap, [], [], none⟩ actions s := by
  have hs := CallState.sound_of_init hinit
  refine throughout_iff ?_ ?_ hs hs.complete hrun
  · exact fun hs hroom hstep => hs.step hroom hstep
  · exact fun hs hstep => ⟨hs.room_of_complete hstep, fun hroom => (hs.step hroom hstep).complete⟩

/-- An aligned block is allocated from the first hole. -/
theorem sample_index_complete : ∃ heap s, initKheap (fun _ => 0) = ⟨[], .ok heap⟩ ∧
    Run (Steps CallState.step) ⟨heap, [], [], none⟩ [.alloc 4096 true] s ∧ s.Complete := by
  have hreturns : (initKheap (fun _ => 0) >>= fun h => check (h.index.length + 1 < kheapIndexNum ∧
      h.endAddress + 2 * (4096 + 4113) ≤ h.maxAddress) .validateEnd).returns = true := by decide +kernel
  obtain ⟨_, hr⟩ := exists_of_returns hreturns
  obtain ⟨heap, hinit, hcheck⟩ := bind_eq_ok hr
  obtain ⟨hlength, hroom⟩ := of_check_eq_ok hcheck
  have hstep : CallState.step ⟨heap, [], [], none⟩ (.alloc 4096 true) = some (CallState.allocate ⟨heap, [], [], none⟩ 4096 true) :=
    if_pos ⟨rfl, by decide, hroom⟩
  have hrun : Run (Steps CallState.step) ⟨heap, [], [], none⟩ [.alloc 4096 true] _ := .cons hstep (.nil _)
  have hguarded : Run (Guarded CallState.Room (Steps CallState.step)) ⟨heap, [], [], none⟩ [.alloc 4096 true] _ :=
    .cons ⟨allocRoom_of_lt hlength, hstep⟩ (.nil _)
  exact ⟨heap, _, hinit, hrun, (index_complete_iff hinit hrun).mpr hguarded _ _ (List.prefix_refl _) hrun⟩

end LuckOS.Kheap
