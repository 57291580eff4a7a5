import LuckOS.ByteMemory
import Mathlib.Data.List.GetD
import Mathlib.Data.List.TakeWhile

/-!
# The scan of a format string

`monitor_printf_args` and `sprintf` advance an index over the format in two places, and behind a `%` they
test the character in front of the one that was read. Here the format is read in memory, and the indexes
that are examined are recorded, with the writers that are called.
-/

namespace LuckOS.FormatScan

open ByteMemory

/-- A writer that is called, with a character of the format or a word behind `arg_ptr`. -/
inductive Write where
  | plain (c : UInt8)
  | dec (arg : Nat)
  | hex (arg : Nat)
  | char (arg : Nat)
  | string (arg : Nat)

def charCode (c : Char) : UInt8 := UInt8.ofNat c.toNat

/-- The directives of `monitor_printf_args`. -/
def monitorDirective (next : UInt8) : Option (Nat → Write) :=
  if next = charCode 'd' then some .dec
  else if next = charCode 'u' then some .dec
  else if next = charCode 'x' then some .hex
  else if next = charCode 'c' then some .char
  else if next = charCode 's' then some .string
  else none

/-- The directives of `sprintf`. -/
def sprintfDirective (next : UInt8) : Option (Nat → Write) :=
  if next = charCode 'd' then some .dec
  else if next = charCode 'u' then some .dec
  else if next = charCode 'x' then some .hex
  else if next = charCode 's' then some .string
  else none

/-- What a formatter has examined of its format, and what it has written. -/
structure Scan where
  examined : List Nat
  writes : List Write

/-- The loop of both formatters; it is unfinished when it runs out of rounds. The second test for the end of
the string is that of the code: it looks at `c`, not at `next`. -/
def scan (directive : UInt8 → Option (Nat → Write)) (mem : Memory)
    (str : Nat) : Nat → Nat → Nat → Scan → Option Scan
  | 0, _, _, _ => none
  | rounds + 1, i, argPtr, s =>
    let c := mem ((str + i) % 2 ^ 32)
    let s := { s with examined := s.examined ++ [i] }
    if c = 0 then some s
    else if c = charCode '%' then
      let i := i + 1
      let next := mem ((str + i) % 2 ^ 32)
      let s := { s with examined := s.examined ++ [i] }
      if c = 0 then some s
      else match directive next with
        | some write =>
          let s := { s with writes := s.writes ++ [write (read32 mem argPtr)] }
          scan directive mem str rounds (i + 1) (argPtr + 4) s
        | none => scan directive mem str rounds (i + 1) argPtr s
    else scan directive mem str rounds (i + 1) argPtr { s with writes := s.writes ++ [.plain c] }

/-- `monitor_printf_args`. -/
def monitorPrintfArgs (mem : Memory) (str argPtr rounds : Nat) : Option Scan :=
  scan monitorDirective mem str rounds 0 argPtr ⟨[], []⟩

/-- `sprintf`. -/
def sprintf (mem : Memory) (str argPtr rounds : Nat) : Option Scan :=
  scan sprintfDirective mem str rounds 0 argPtr ⟨[], []⟩

/-- The string `text` with its terminating zero is in memory. -/
structure TextAt (mem : Memory) (addr : Nat) (text : List UInt8) : Prop where
  chars : ∀ (k : Nat) (hk : k < text.length), mem ((addr + k) % 2 ^ 32) = text[k]
  zero : mem ((addr + text.length) % 2 ^ 32) = 0
  nonzero : 0 ∉ text

/-- The formatter terminates, and it examines no byte behind the terminating zero. -/
def StaysInside (formatter : Nat → Option Scan) (length : Nat) : Prop :=
  ∃ rounds s, formatter rounds = some s ∧ ∀ i ∈ s.examined, i ≤ length

/-- The number of `%` at the end of a string. -/
def trailing (text : List UInt8) : Nat := (text.reverse.takeWhile (· == charCode '%')).length

/-- The scan of the string comes to a `%` with nothing behind it. -/
def endsInside : List UInt8 → Bool
  | [] => false
  | c :: text =>
    if c = charCode '%' then
      match text with
      | [] => true
      | _ :: text => endsInside text
    else endsInside text

variable {directive : UInt8 → Option (Nat → Write)} {mem : Memory} {str addr i argPtr rounds : Nat}
  {s s' : Scan}
  {c : UInt8} {text : List UInt8}

/-! ## The end of the string -/

theorem trailing_cons : trailing (c :: text) =
    if trailing text = text.length then text.length + (if c = charCode '%' then 1 else 0)
    else trailing text := by
  have hdef : trailing text = (text.reverse.takeWhile (· == charCode '%')).length := rfl
  rw [trailing, List.reverse_cons, List.takeWhile_append, List.length_reverse, ← hdef]
  split_ifs with hall hc
  · rw [List.length_append, List.length_reverse, List.takeWhile_cons, if_pos (beq_iff_eq.mpr hc)]
    rfl
  · rw [List.length_append, List.length_reverse, List.takeWhile_cons, if_neg (mt beq_iff_eq.mp hc)]
    rfl
  · exact hdef.symm

theorem trailing_le : trailing text ≤ text.length := by
  have hle := (List.takeWhile_sublist (l := text.reverse) (· == charCode '%')).length_le
  rwa [List.length_reverse] at hle

theorem endsInside_percent (next : UInt8) (text : List UInt8) :
    endsInside (charCode '%' :: next :: text) = endsInside text := by
  rw [endsInside.eq_def]
  exact if_pos rfl

theorem endsInside_plain (hc : c ≠ charCode '%') (text : List UInt8) :
    endsInside (c :: text) = endsInside text := by
  rw [endsInside.eq_def]
  exact if_neg hc

/-- The scan ends inside of a directive if the number of `%` at the end is odd. -/
theorem endsInside_iff : endsInside text = true ↔ trailing text % 2 = 1 := by
  induction text using endsInside.induct with
  | case1 => decide
  | case2 => decide
  | case3 next text ih =>
    have hle : trailing text ≤ text.length := trailing_le
    rw [endsInside_percent, ih, trailing_cons, trailing_cons, List.length_cons, if_pos rfl]
    split_ifs <;> omega
  | case4 c text hc ih =>
    rw [endsInside_plain hc, ih, trailing_cons (c := c), if_neg hc]
    split_ifs with hall
    · rw [hall]
      rfl
    · rfl

/-! ## One round -/

theorem TextAt.tail (h : TextAt mem addr (c :: text)) : TextAt mem (addr + 1) text := by
  refine ⟨fun k hk => ?_, ?_, fun hmem => h.nonzero (List.mem_cons_of_mem _ hmem)⟩
  · rw [Nat.add_assoc, Nat.add_comm 1 k]
    exact h.chars (k + 1) (Nat.succ_lt_succ hk)
  · rw [Nat.add_assoc, Nat.add_comm 1 text.length]
    exact h.zero

theorem TextAt.head (h : TextAt mem addr (c :: text)) : mem (addr % 2 ^ 32) = c :=
  h.chars 0 (Nat.succ_pos _)

theorem TextAt.head_ne (h : TextAt mem addr (c :: text)) : c ≠ 0 :=
  fun hzero => h.nonzero (hzero ▸ List.mem_cons_self ..)

theorem scan_zero (hc : mem ((str + i) % 2 ^ 32) = 0) : scan directive mem str (rounds + 1) i argPtr s =
    some { s with examined := s.examined ++ [i] } := by
  rw [scan, hc]
  exact if_pos rfl

theorem scan_plain (hzero : mem ((str + i) % 2 ^ 32) ≠ 0)
    (hpercent : mem ((str + i) % 2 ^ 32) ≠ charCode '%') :
    scan directive mem str (rounds + 1) i argPtr s = scan directive mem str rounds (i + 1) argPtr
      ⟨s.examined ++ [i], s.writes ++ [.plain (mem ((str + i) % 2 ^ 32))]⟩ := by
  rw [scan]
  exact (if_neg hzero).trans (if_neg hpercent)

/-- A `%` is passed together with the byte behind it, whatever that is; at most the writer of a directive is
called. -/
theorem scan_percent (hpercent : mem ((str + i) % 2 ^ 32) = charCode '%') : ∃ argPtr' writes,
    scan directive mem str (rounds + 1) i argPtr s = scan directive mem str rounds (i + 1 + 1) argPtr'
      ⟨s.examined ++ [i] ++ [i + 1], s.writes ++ writes⟩ ∧
      ∀ w ∈ writes, ∃ next write arg, directive next = some write ∧ w = write arg := by
  have hzero : charCode '%' ≠ 0 := by decide
  rw [scan, hpercent]
  simp only [if_neg hzero, if_true]
  cases hdirective : directive (mem ((str + (i + 1)) % 2 ^ 32)) with
  | some write =>
    refine ⟨_, [write (read32 mem argPtr)], rfl, fun w hw => ?_⟩
    exact ⟨_, write, _, hdirective, List.mem_singleton.mp hw⟩
  | none =>
    refine ⟨argPtr, [], ?_, nofun⟩
    rw [List.append_nil]

/-- A round examines its index, and what was examined stays recorded. -/
theorem scan_keeps {j : Nat} (hj : j ∈ s.examined ++ [i])
    (hrun : scan directive mem str rounds i argPtr s = some s') :
    j ∈ s'.examined := by
  induction rounds generalizing i argPtr s with
  | zero => cases hrun
  | succ rounds ih =>
    by_cases hzero : mem ((str + i) % 2 ^ 32) = 0
    · rw [scan_zero hzero] at hrun
      obtain rfl := Option.some.inj hrun
      exact hj
    · by_cases hpercent : mem ((str + i) % 2 ^ 32) = charCode '%'
      · obtain ⟨argPtr', writes, hstep, -⟩ := scan_percent hpercent
        rw [hstep] at hrun
        exact ih (List.mem_append_left _ (List.mem_append_left _ hj)) hrun
      · rw [scan_plain hzero hpercent] at hrun
        exact ih (List.mem_append_left _ hj) hrun

/-! ## The whole scan -/

/-- A string that ends outside of a directive is scanned up to its end. -/
theorem scan_inside (h : TextAt mem (str + i) text) (hend : endsInside text = false)
    (hrounds : text.length < rounds) :
    ∃ s', scan directive mem str rounds i argPtr s = some s' ∧ ∀ j ∈ s'.examined, j ∈ s.examined ∨
    j ≤ i + text.length := by
  induction text using endsInside.induct generalizing i argPtr rounds s with
  | case1 =>
    obtain ⟨rounds, rfl⟩ := Nat.exists_eq_add_one.mpr hrounds
    refine ⟨_, scan_zero h.zero, fun j hj => ?_⟩
    rcases List.mem_append.mp hj with hj | hj
    · exact .inl hj
    · exact .inr (List.mem_singleton.mp hj).le
  | case2 => cases hend
  | case3 next text ih =>
    obtain ⟨rounds, rfl⟩ := Nat.exists_eq_add_one.mpr (Nat.zero_lt_of_lt hrounds)
    obtain ⟨argPtr', writes, hstep, -⟩ := scan_percent h.head
    rw [endsInside_percent] at hend
    rw [List.length_cons, List.length_cons] at hrounds
    obtain ⟨s', hrun, hinside⟩ := @ih (i + 1 + 1) argPtr' rounds ⟨_, _⟩ h.tail.tail hend (by omega)
    refine ⟨s', hstep.trans hrun, fun j hj => ?_⟩
    rw [List.length_cons, List.length_cons]
    rcases hinside j hj with hj | hj
    · simp only [List.mem_append, List.mem_singleton] at hj
      rcases hj with (hj | rfl) | rfl
      · exact .inl hj
      · exact .inr (by omega)
      · exact .inr (by omega)
    · exact .inr (by omega)
  | case4 c text hc ih =>
    obtain ⟨rounds, rfl⟩ := Nat.exists_eq_add_one.mpr (Nat.zero_lt_of_lt hrounds)
    rw [endsInside_plain hc] at hend
    rw [List.length_cons] at hrounds
    obtain ⟨s', hrun, hinside⟩ := @ih (i + 1) argPtr rounds ⟨_, _⟩ h.tail hend (by omega)
    refine ⟨s', (scan_plain (h.head ▸ h.head_ne) (h.head ▸ hc)).trans hrun, fun j hj => ?_⟩
    rw [List.length_cons]
    rcases hinside j hj with hj | hj
    · rcases List.mem_append.mp hj with hj | hj
      · exact .inl hj
      · exact .inr (by rw [List.mem_singleton.mp hj]; omega)
    · exact .inr (by omega)

theorem scan_outside (h : TextAt mem (str + i) text) (hend : endsInside text = true)
    (hrun : scan directive mem str rounds i argPtr s = some s') :
    i + text.length + 1 ∈ s'.examined := by
  induction text using endsInside.induct generalizing i argPtr rounds s with
  | case1 => cases hend
  | case2 =>
    cases rounds with
    | zero => cases hrun
    | succ rounds =>
      obtain ⟨argPtr', writes, hstep, -⟩ := scan_percent h.head
      rw [hstep] at hrun
      exact scan_keeps (List.mem_append_right _ (List.mem_singleton_self _)) hrun
  | case3 next text ih =>
    cases rounds with
    | zero => cases hrun
    | succ rounds =>
      obtain ⟨argPtr', writes, hstep, -⟩ := scan_percent h.head
      rw [hstep] at hrun
      rw [endsInside_percent] at hend
      have hlength : i + (charCode '%' :: next :: text).length + 1 = i + 1 + 1 + text.length + 1 := by
        rw [List.length_cons, List.length_cons]
        omega
      rw [hlength]
      exact ih (i := i + 1 + 1) h.tail.tail hend hrun
  | case4 c text hc ih =>
    cases rounds with
    | zero => cases hrun
    | succ rounds =>
      rw [scan_plain (h.head ▸ h.head_ne) (h.head ▸ hc)] at hrun
      rw [endsInside_plain hc] at hend
      have hlength : i + (c :: text).length + 1 = i + 1 + text.length + 1 := by
        rw [List.length_cons]
        omega
      rw [hlength]
      exact ih (i := i + 1) h.tail hend hrun

theorem staysInside_iff (h : TextAt mem str text) (argPtr : Nat) :
    StaysInside (fun rounds => scan directive mem str rounds 0 argPtr ⟨[], []⟩) text.length ↔
    trailing text % 2 = 0 := by
  have hparity : trailing text % 2 = 0 ↔ endsInside text = false := by
    rw [← Bool.not_eq_true, endsInside_iff]
    omega
  rw [hparity]
  constructor
  · rintro ⟨rounds, s', hrun, hinside⟩
    by_contra hend
    have hbehind := hinside _ (scan_outside (i := 0) h ((Bool.not_eq_false _).mp hend) hrun)
    omega
  · intro hend
    obtain ⟨s', hrun, hinside⟩ := scan_inside (i := 0) h hend (Nat.lt_succ_self _)
    refine ⟨_, s', hrun, fun j hj => ?_⟩
    rcases hinside j hj with hj | hj
    · cases hj
    · omega

/-- Both formatters stay inside of the format exactly if it ends in an even number of `%`. -/
theorem formatters_stay_inside_iff (h : TextAt mem str text) (argPtr : Nat) :
    (StaysInside (monitorPrintfArgs mem str argPtr) text.length ↔ trailing text % 2 = 0) ∧
      (StaysInside (sprintf mem str argPtr) text.length ↔ trailing text % 2 = 0) :=
  ⟨staysInside_iff h argPtr, staysInside_iff h argPtr⟩

/-- A memory that holds a string at address 0 and a byte everywhere behind it. -/
def holding (text : List UInt8) (behind : UInt8) : Memory :=
  fun a => if a = text.length then 0 else text.getD a behind

theorem textAt_holding (text : List UInt8) (behind : UInt8) (hnonzero : 0 ∉ text)
    (hlength : text.length < 2 ^ 32) :
    TextAt (holding text behind) 0 text := by
  refine ⟨fun k hk => ?_, ?_, hnonzero⟩
  · rw [Nat.zero_add, Nat.mod_eq_of_lt (by omega), holding, if_neg (by omega),
      List.getD_eq_getElem _ _ hk]
  · rw [Nat.zero_add, Nat.mod_eq_of_lt hlength, holding, if_pos rfl]

/-- `"%d%%"` is scanned up to its end. -/
theorem formatters_stay_inside_decimal : StaysInside (sprintf (holding [37, 100, 37, 37] 0) 0 64) 4 :=
  (formatters_stay_inside_iff (textAt_holding [37, 100, 37,
    37] 0 (by decide) (by decide)) 64).2.mpr (by decide)

/-- `"100%"` is not: the scan goes on behind its end. -/
theorem formatters_run_past_end : ¬ ∀ (mem : Memory) (str argPtr : Nat) (text : List UInt8),
    TextAt mem str text →
    StaysInside (monitorPrintfArgs mem str argPtr) text.length ∧
    StaysInside (sprintf mem str argPtr) text.length := by
  intro hall
  have htext := textAt_holding [49, 48, 48, 37] 0 (by decide) (by decide)
  have hinside := (hall _ _ 64 _ htext).1
  exact absurd ((staysInside_iff htext 64).mp hinside) (by decide)

end LuckOS.FormatScan
