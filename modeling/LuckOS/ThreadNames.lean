import LuckOS.FileSystem
import LuckOS.ByteMemory
import LuckOS.Formatters
import Mathlib.Data.List.GetD

/-!
# The name of a new thread

`init_thread` copies a name of any length to `name[32]` of a `task_struct`. The record is kept as its
76 bytes, with the offsets that the compiler gives to its fields, and what lies behind it in memory.
-/

namespace LuckOS.ThreadNames

open ByteMemory FileSystem

/-! ## The layout of `task_struct` -/

def kernelEsp : Nat := 0
def kernelStack : Nat := 4
def id : Nat := 8
def name : Nat := 12
def priority : Nat := 44
def status : Nat := 48
def ticks : Nat := 52
def process : Nat := 56
def userStackIndex : Nat := 64
def needReschedule : Nat := 68
def preemptCount : Nat := 72
def sizeofTaskStruct : Nat := 76

/-- The length of the field `name`. -/
def nameSize : Nat := 32

def taskReady : Nat := 1
def threadDefaultPriority : Nat := 10
def kernelStackSize : Nat := 8192
def sizeofInterruptStack : Nat := 64
def sizeofSwitchStack : Nat := 40

/-! ## Creation of a thread -/

/-- `strcpy`, with the bytes of the source up to its terminating zero. -/
def strcpy (m : Memory) (dst : Nat) : List Byte → Memory
  | [] => m
  | c :: src =>
    let m := write8 m dst c
    if c = 0 then m else strcpy m (dst + 1) src

/-- A new record from `kmalloc`, cleared, with its id. -/
def allocated (garbage : Memory) (threadId : Nat) : Memory :=
  write32 (fun x => if x < sizeofTaskStruct then 0 else garbage x) id threadId

/-- The record with its name. Without a name it is made from the id. -/
def named (garbage : Memory) (threadId : Nat) (threadName : Option (List Byte)) : Memory :=
  let buf := ((Formatters.sprintf "thread-%u".toList [.word (BitVec.ofNat 32 threadId)]).getD []).map fun c => UInt8.ofNat c.toNat
  strcpy (allocated garbage threadId) name (threadName.getD (buf ++ [0]))

/-- `init_thread`, as far as it stores to the record, with the stack that `kmalloc_aligned` returns. -/
def initThread (garbage : Memory) (threadId : Nat) (threadName : Option (List Byte))
    (threadPriority stack : Nat) : Memory :=
  let m := named garbage threadId threadName
  let m := write32 m status taskReady
  let m := write32 m ticks 0
  let m := write8 m priority (UInt8.ofNat threadPriority)
  let m := write32 m userStackIndex (2 ^ 32 - 1)
  let m := write32 m kernelStack stack
  write32 m kernelEsp (stack + kernelStackSize - (sizeofInterruptStack + sizeofSwitchStack))

/-- `create_new_user_thread`, as far as it stores to the record. -/
def createNewUserThread (garbage : Memory) (threadId : Nat) (threadName : List Byte)
    (stack processAddr stackIndex : Nat) : Memory :=
  let m := initThread garbage threadId (some threadName) threadDefaultPriority stack
  let m := write32 m process processAddr
  write32 m userStackIndex stackIndex

/-- The copy of the name changes nothing but the field `name`, which then holds a string, and the thread
can be preempted. -/
structure OnlyNamed (before after record : Memory) : Prop where
  preempt : read32 record preemptCount = 0
  reschedule : record needReschedule = 0
  terminated : ∃ k < nameSize, record (name + k) = 0
  frame : ∀ x < sizeofTaskStruct, x < name ∨ name + nameSize ≤ x → after x = before x

/-- The thread that `process_exec` creates for a path is only named by it. -/
def NamesOnly (garbage : Memory) (path : List Byte)
    (threadId stack processAddr stackIndex : Nat) : Prop :=
  OnlyNamed (allocated garbage threadId) (named garbage threadId (some (path ++ [0])))
    (createNewUserThread garbage threadId (path ++ [0]) stack processAddr stackIndex)

variable {m garbage : Memory} {path : List Byte} {dst x : Nat}

/-- The bytes of a string and its terminating zero are stored, and no others. -/
theorem strcpy_eq (hzero : 0 ∉ path) :
    strcpy m dst (path ++ [0]) x = if dst ≤ x ∧ x ≤ dst + path.length
    then (path ++ [0]).getD (x - dst) 0 else m x := by
  induction path generalizing m dst with
  | nil =>
    rw [List.nil_append, strcpy, if_pos rfl, write8]
    by_cases hx : x = dst
    · subst hx
      simp
    · rw [if_neg hx, if_neg (by simp; omega)]
  | cons c path ih =>
    obtain ⟨hc, hzero⟩ := not_or.mp fun hmem => hzero (List.mem_cons.mpr hmem)
    rw [List.cons_append, strcpy, if_neg (Ne.symm hc), ih hzero, List.length_cons]
    by_cases hx : x = dst
    · subst hx
      rw [if_neg (by omega), if_pos (by omega), write8, if_pos rfl, Nat.sub_self]
      rfl
    · rw [write8_of_ne hx]
      by_cases hin : dst + 1 ≤ x ∧ x ≤ dst + 1 + path.length
      · have hsucc : x - dst = x - (dst + 1) + 1 := by omega
        rw [if_pos hin, if_pos (by omega), hsucc, List.getD_cons_succ]
      · rw [if_neg hin, if_neg (by omega)]

/-! ## What becomes of the record -/

variable {threadId stack processAddr stackIndex : Nat}

/-- The name is stored up to its end, however long it is. -/
theorem named_eq (hzero : 0 ∉ path) : named garbage threadId (some (path ++ [0])) x =
    if name ≤ x ∧ x ≤ name + path.length then (path ++ [0]).getD (x - name) 0
    else allocated garbage threadId x := by
  apply strcpy_eq hzero

theorem allocated_eq (hx : x < sizeofTaskStruct) (hid : x < id ∨ id + 4 ≤ x) :
    allocated garbage threadId x = 0 := by
  rw [allocated, write32_of_ne hid, if_pos hx]

/-- The stores behind the copy leave the name alone, and what lies behind the field `user_stack_index`. -/
theorem createNewUserThread_eq (hx : name ≤ x ∧ x < name + nameSize ∨ userStackIndex + 4 ≤ x) :
    createNewUserThread garbage threadId path stack processAddr stackIndex x =
    named garbage threadId (some path) x := by
  simp only [name, nameSize, userStackIndex] at hx
  rw [createNewUserThread, initThread, write32_of_ne (by simp only [userStackIndex]; omega),
    write32_of_ne (by simp only [process]; omega), write32_of_ne (by simp only [kernelEsp]; omega),
    write32_of_ne (by simp only [kernelStack]; omega),
    write32_of_ne (by simp only [userStackIndex]; omega),
    write8_of_ne (by simp only [priority]; omega), write32_of_ne (by simp only [ticks]; omega),
    write32_of_ne (by simp only [status]; omega)]

theorem getD_terminated (path : List Byte) (k : Nat) : (path ++ [0]).getD k 0 = path.getD k 0 := by
  rw [List.getD_eq_getElem?_getD, List.getD_eq_getElem?_getD, List.getElem?_append]
  split_ifs with hk
  · rfl
  · rw [List.getElem?_eq_none (Nat.le_of_not_lt hk), List.getElem?_singleton]
    split_ifs <;> rfl

/-- What lies behind `user_stack_index`, the flag and the count of preemption, are characters of the name, if
it has so many. -/
theorem behind_userStackIndex (hzero : 0 ∉ path) (hx : userStackIndex + 4 ≤ x)
    (hlt : x < sizeofTaskStruct) :
    createNewUserThread garbage threadId (path ++ [0]) stack processAddr stackIndex x =
    path.getD (x - name) 0 := by
  simp only [userStackIndex] at hx
  rw [createNewUserThread_eq (.inr hx), named_eq hzero, getD_terminated, name]
  split_ifs with hin
  · rfl
  · rw [allocated_eq hlt (.inr (by simp only [id]; omega)), List.getD_eq_getElem?_getD,
      List.getElem?_eq_none (by omega)]
    rfl

/-- A name of 61 characters or more disables preemption of the thread. -/
theorem preemptCount_ne_zero (hzero : 0 ∉ path) (hlong : 60 < path.length) :
    read32 (createNewUserThread garbage threadId (path ++
      [0]) stack processAddr stackIndex) preemptCount ≠ 0 := by
  have hfirst : createNewUserThread garbage threadId
    (path ++ [0]) stack processAddr stackIndex preemptCount = path.getD 60 0 :=
    behind_userStackIndex hzero (by decide) (by decide)
  rw [List.getD_eq_getElem _ _ hlong] at hfirst
  have hne : path[60].toNat ≠ 0 :=
    fun heq => hzero ((UInt8.toNat_inj.mp heq : path[60] = 0) ▸ List.getElem_mem hlong)
  rw [read32, hfirst]
  omega

theorem namesOnly_iff (hzero : 0 ∉ path) :
    NamesOnly garbage path threadId stack processAddr stackIndex ↔ path.length ≤ 31 := by
  constructor
  · rintro ⟨-, -, ⟨k, hk, hend⟩, -⟩
    by_contra hlong
    rw [nameSize] at hk
    rw [createNewUserThread_eq (.inl ⟨Nat.le_add_right .., Nat.add_lt_add_left hk _⟩),
      named_eq hzero, if_pos (by omega),
      Nat.add_sub_cancel_left, getD_terminated, List.getD_eq_getElem _ _ (by omega)] at hend
    exact hzero (hend ▸ List.getElem_mem _)
  · intro hshort
    have hclear : ∀ x, userStackIndex + 4 ≤ x → x < sizeofTaskStruct →
        createNewUserThread garbage threadId (path ++ [0]) stack processAddr stackIndex x = 0 := by
      intro x hx hlt
      simp only [userStackIndex] at hx
      rw [behind_userStackIndex hzero hx hlt, name, List.getD_eq_getElem?_getD,
        List.getElem?_eq_none (by omega)]
      rfl
    refine ⟨?_, hclear _ (by decide) (by decide), ⟨path.length, by rw [nameSize]; omega, ?_⟩,
      fun x _ hx => ?_⟩
    · have hzeros : SameOn (fun _ => 0)
        (createNewUserThread garbage threadId (path ++ [0]) stack processAddr stackIndex)
          preemptCount (preemptCount + 4) := fun x hlo hhi =>
            hclear x (Nat.le_trans (by decide) hlo) (Nat.lt_of_lt_of_le hhi (by decide))
      exact read32_congr hzeros
    · rw [createNewUserThread_eq (.inl (by simp only [name, nameSize]; omega)), named_eq hzero,
        if_pos (by omega),
        Nat.add_sub_cancel_left]
      simp
    · rw [nameSize] at hx
      rw [named_eq hzero, if_neg (by omega)]

/-! ## Paths -/

theorem length_lt_of_strcmp {xs : List Byte} (hzero : 0 ∉ path) (h : strcmp xs (path ++ [0]) = some 0) :
    path.length < xs.length := by
  induction path generalizing xs with
  | nil =>
    cases xs with
    | nil => cases h
    | cons c xs => exact Nat.succ_pos _
  | cons c path ih =>
    obtain ⟨hc, hrest⟩ := not_or.mp fun hmem => hzero (List.mem_cons.mpr hmem)
    cases xs with
    | nil => cases h
    | cons c' xs =>
      rw [List.cons_append, strcmp] at h
      by_cases hsame : c' = c
      · subst hsame
        rw [if_neg (Ne.symm hc), if_neg (Ne.symm hc), if_neg (not_not.mpr rfl)] at h
        exact Nat.succ_lt_succ (ih hrest h)
      · exfalso
        rw [if_neg (Ne.symm hc), if_pos hsame] at h
        split_ifs at h <;> simp at h

/-- The names in the file system have 64 bytes, whatever is on the disk. -/
theorem length_filename {bytes : List Byte} {n : Nat} {f : NaiveFileMeta}
    (hf : f ∈ ofRecords n bytes) : f.filename.length ≤ 64 := by
  induction n generalizing bytes with
  | zero => cases hf
  | succ n ih =>
    rcases List.mem_cons.mp hf with rfl | hf
    · exact List.length_take_le ..
    · exact ih hf

theorem strcmp_of_findMeta {filename : List Byte} {metas : List NaiveFileMeta} {f : NaiveFileMeta}
    (h : findMeta filename metas = some (some f)) :
    f ∈ metas ∧ strcmp f.filename filename = some 0 := by
  induction metas with
  | nil => cases h
  | cons g metas ih =>
    rw [findMeta] at h
    obtain ⟨r, hr, hfound⟩ := Option.bind_eq_some_iff.mp h
    split_ifs at hfound with hzero
    · obtain rfl := Option.some.inj (Option.some.inj hfound)
      rw [hr, hzero]
      exact ⟨List.mem_cons_self .., rfl⟩
    · obtain ⟨hmem, hcmp⟩ := ih hfound
      exact ⟨List.mem_cons_of_mem _ hmem, hcmp⟩

/-- A path that is found has at most 63 characters. -/
theorem length_le_of_statFile {disk : Nat → Byte} {size : Nat} (hzero : 0 ∉ path)
    (hstat : statFile (initNaiveFs disk) (path ++ [0]) = some (0, some size)) : path.length ≤ 63 := by
  obtain ⟨found, hfind, hresult⟩ := Option.map_eq_some_iff.mp hstat
  cases found with
  | none => cases hresult
  | some f =>
    obtain ⟨hmem, hcmp⟩ := strcmp_of_findMeta hfind
    exact Nat.le_of_lt_succ (Nat.lt_of_lt_of_le (length_lt_of_strcmp hzero hcmp) (length_filename hmem))

/-- The copy of a path that is found stays inside of the record, and it changes only the name of the thread
exactly if the path has at most 31 characters. -/
theorem names_only_iff {disk : Nat → Byte} {size : Nat} (hzero : 0 ∉ path)
    (hstat : statFile (initNaiveFs disk) (path ++ [0]) = some (0, some size)) (garbage : Memory)
    (threadId stack processAddr stackIndex : Nat) :
    (∀ x, sizeofTaskStruct ≤ x → named garbage threadId (some (path ++ [0])) x = garbage x) ∧
      (NamesOnly garbage path threadId stack processAddr stackIndex ↔ path.length ≤ 31) := by
  refine ⟨fun x hx => ?_, namesOnly_iff hzero⟩
  have hlength := length_le_of_statFile hzero hstat
  simp only [sizeofTaskStruct] at hx
  rw [named_eq hzero, name, if_neg (by omega), allocated,
    write32_of_ne (.inr (by simp only [id]; omega)), sizeofTaskStruct,
    if_neg (by omega)]

/-! ## A long name -/

/-- A disk with an empty program whose name has `n` letters. -/
def diskWith (n : Nat) : Nat → Byte := fun a =>
  (DiskImageWriter.image [⟨List.replicate n 97, []⟩]).getD (a - NaiveFs.partitionOffset) 0

theorem names_only_of_four : NamesOnly (fun _ => 0xFF) [97, 97, 97, 97] 5 0xC0D00000 0xC0D10000 0 := by
  have hstat : statFile (initNaiveFs (diskWith 4)) ([97, 97, 97, 97] ++ [0]) =
    some (0, some 0) := by decide +kernel
  exact (names_only_iff (by decide) hstat _ _ _ _ _).2.mpr (by decide)

/-- With 61 letters the thread can never be preempted. -/
theorem preempt_disabled_by_name : ¬ ∀ (disk : Nat → Byte) (path : List Byte) (size : Nat), 0 ∉ path →
    statFile (initNaiveFs disk) (path ++ [0]) = some (0, some size) →
    ∀ garbage threadId stack processAddr stackIndex,
      NamesOnly garbage path threadId stack processAddr stackIndex := by
  intro hall
  have hnamed := hall (diskWith 61) (List.replicate 61 97) 0 (by decide) (by decide +kernel)
    (fun _ => 0xFF) 5 0xC0D00000 0xC0D10000 0
  exact preemptCount_ne_zero (by decide) (by decide) hnamed.preempt

end LuckOS.ThreadNames
