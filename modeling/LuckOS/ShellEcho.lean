import LuckOS.FormatScan
import LuckOS.Shell

/-!
# What the shell echoes

The shell prints its line from the cursor on by giving it to `printf` as the format, and it moves the cursor
back by the number of characters in it. The line is echoed as it is exactly if it has no `%` there.
-/

namespace LuckOS.ShellEcho

open ByteMemory FormatScan

/-- The `print` system call. -/
def print (mem : Memory) (str args rounds : Nat) : Option Scan := monitorPrintfArgs mem str args rounds

/-- `printf` of `common/stdio.c`. The arguments lie on the stack behind the format. -/
def printf (mem : Memory) (str ebp rounds : Nat) : Option Scan :=
  print mem str ((ebp + 12) % 2 ^ 32) rounds

/-- `printf(cmd_buffer + (line_cursor_index - 3))`. -/
def printTail (mem : Memory) (cmdBuffer lineCursorIndex ebp rounds : Nat) : Option Scan :=
  printf mem (cmdBuffer + (lineCursorIndex - 3)) ebp rounds

/-- The formatter returns, and it has written the characters of a text one by one, and no argument. -/
def Echoes (formatter : Nat → Option Scan) (text : List UInt8) : Prop :=
  ∃ rounds s, formatter rounds = some s ∧ s.writes = text.map .plain

variable {directive : UInt8 → Option (Nat → Write)} {mem : Memory} {str addr i argPtr rounds : Nat}
  {s s' : Scan} {text : List UInt8}

theorem textAt_drop (h : TextAt mem addr text) (k : Nat) (hk : k ≤ text.length) :
    TextAt mem (addr + k) (text.drop k) := by
  induction k with
  | zero => exact h
  | succ k ih =>
    have hrest := ih (Nat.le_of_succ_le hk)
    rw [List.drop_eq_getElem_cons hk] at hrest
    exact hrest.tail

/-- Characters other than `%` are written as they are. -/
theorem scan_verbatim (h : TextAt mem (str + i) text) (hpercent : charCode '%' ∉ text)
    (hrounds : text.length < rounds) : ∃ s', scan directive mem str rounds i argPtr s = some s' ∧
      s'.writes = s.writes ++ text.map .plain := by
  induction text generalizing i rounds s with
  | nil =>
    obtain ⟨rounds, rfl⟩ := Nat.exists_eq_add_one.mpr hrounds
    exact ⟨_, scan_zero h.zero, (List.append_nil _).symm⟩
  | cons c text ih =>
    obtain ⟨rounds, rfl⟩ := Nat.exists_eq_add_one.mpr (Nat.zero_lt_of_lt hrounds)
    obtain ⟨hc, hrest⟩ := not_or.mp (mt List.mem_cons.mpr hpercent)
    have hread : mem ((str + i) % 2 ^ 32) = c := h.head
    obtain ⟨s', hrun, hwrites⟩ := @ih (i + 1) rounds ⟨s.examined ++ [i], s.writes ++ [.plain c]⟩
      h.tail hrest (Nat.lt_of_succ_lt_succ hrounds)
    refine ⟨s', ?_, ?_⟩
    · rw [scan_plain (hread ▸ h.head_ne) (hread ▸ Ne.symm hc), hread]
      exact hrun
    · rw [hwrites, List.append_assoc]
      rfl

/-- No writer of a directive is that of a plain character. -/
theorem monitorDirective_ne_plain {next : UInt8} {write : Nat → Write}
    (h : monitorDirective next = some write) (arg : Nat) (c : UInt8) : write arg ≠ .plain c := by
  rw [monitorDirective] at h
  split_ifs at h <;>
  · obtain rfl := Option.some.inj h
    exact nofun

/-- A `%` is never written as a plain character. -/
theorem percent_not_written (hs : .plain (charCode '%') ∉ s.writes)
    (hrun : scan monitorDirective mem str rounds i argPtr s = some s') :
    .plain (charCode '%') ∉ s'.writes := by
  induction rounds generalizing i argPtr s with
  | zero => cases hrun
  | succ rounds ih =>
    by_cases hzero : mem ((str + i) % 2 ^ 32) = 0
    · rw [scan_zero hzero] at hrun
      obtain rfl := Option.some.inj hrun
      exact hs
    · by_cases hpercent : mem ((str + i) % 2 ^ 32) = charCode '%'
      · obtain ⟨argPtr', writes, hstep, hwrites⟩ := scan_percent hpercent
        rw [hstep] at hrun
        refine ih (fun hmem => ?_) hrun
        rcases List.mem_append.mp hmem with hmem | hmem
        · exact hs hmem
        · obtain ⟨next, write, arg, hdirective, heq⟩ := hwrites _ hmem
          exact monitorDirective_ne_plain hdirective arg _ heq.symm
      · rw [scan_plain hzero hpercent] at hrun
        refine ih (fun hmem => ?_) hrun
        rcases List.mem_append.mp hmem with hmem | hmem
        · exact hs hmem
        · exact hpercent (Write.plain.inj (List.mem_singleton.mp hmem)).symm

theorem printf_echoes_iff (h : TextAt mem str text) (ebp : Nat) :
    Echoes (printf mem str ebp) text ↔ charCode '%' ∉ text := by
  constructor
  · rintro ⟨rounds, s, hrun, hwrites⟩ hmem
    refine percent_not_written List.not_mem_nil hrun ?_
    rw [hwrites]
    exact List.mem_map_of_mem hmem
  · intro hpercent
    exact ⟨_, scan_verbatim (i := 0) (s := ⟨[], []⟩) h hpercent (Nat.lt_succ_self _)⟩

/-- A line of printable characters is echoed from the cursor on exactly if there is no `%` behind the
cursor. -/
theorem echo_verbatim_iff {cmdBuffer lineCursorIndex : Nat}
    (hline : ∀ (k : Nat) (hk : k < text.length), mem ((cmdBuffer + k) % 2 ^ 32) = text[k])
    (hend : mem ((cmdBuffer + text.length) % 2 ^ 32) = 0)
    (hprintable : ∀ c ∈ text, 0x20 ≤ c ∧ c ≤ 0x7E) (_ : 3 ≤ lineCursorIndex)
    (hcursor : lineCursorIndex ≤ text.length + 3) (ebp : Nat) :
    Echoes (printTail mem cmdBuffer lineCursorIndex ebp) (text.drop (lineCursorIndex - 3)) ↔
      charCode '%' ∉ text.drop (lineCursorIndex - 3) := by
  have hnonzero : 0 ∉ text := fun hmem => absurd (hprintable 0 hmem).1 (by decide)
  have htext : TextAt mem cmdBuffer text := ⟨hline, hend, hnonzero⟩
  exact printf_echoes_iff (textAt_drop htext _ (by omega)) ebp

/-- `ls -l` is echoed from its second word on. -/
theorem echo_verbatim_ls :
    Echoes (printTail (holding [108, 115, 32, 45, 108] 0) 0 6 64) [45, 108] := by
  have htext := textAt_holding [108, 115, 32, 45, 108] 0 (by decide) (by decide)
  have hprintable : ∀ c ∈ ([108, 115, 32, 45, 108] : List UInt8), 0x20 ≤ c ∧ c ≤ 0x7E := by simp
  exact (echo_verbatim_iff htext.chars htext.zero hprintable (by decide) (by decide) 64).mpr (by decide)

/-- `%d` is not: the formatter reads an argument. -/
theorem percent_not_echoed : ¬ ∀ (mem : Memory) (cmdBuffer lineCursorIndex ebp : Nat)
    (line : List UInt8),
    TextAt mem cmdBuffer line → (∀ c ∈ line, 0x20 ≤ c ∧ c ≤ 0x7E) → 3 ≤ lineCursorIndex →
      lineCursorIndex ≤ line.length + 3 →
        Echoes (printTail mem cmdBuffer lineCursorIndex ebp) (line.drop (lineCursorIndex - 3)) := by
  intro hall
  have htext := textAt_holding [37, 100] 0 (by decide) (by decide)
  have hprintable : ∀ c ∈ ([37, 100] : List UInt8), 0x20 ≤ c ∧ c ≤ 0x7E := by simp
  have hechoes : Echoes (printf (holding [37, 100] 0) 0 64) [37, 100] :=
    hall _ 0 3 64 _ htext hprintable (by decide) (by decide)
  have hmem : charCode '%' ∈ [37, 100] := by decide
  exact (printf_echoes_iff htext 64).mp hechoes hmem

/-- The line editor echoes what it shows from the cursor on. -/
theorem shows_echo_iff {t : Shell} {e : LineEditor UInt8} {cmdBuffer : Nat} (h : t.Shows e)
    (hpos : 0 < t.cmdEndIndex) (hprintable : ∀ c ∈ e.text, 0x20 ≤ c ∧ c ≤ 0x7E)
    (hbuffer : ∀ k : Nat, k ≤ e.text.length → mem ((cmdBuffer + k) % 2 ^ 32) = t.cmdBuffer k)
    (ebp : Nat) :
    Echoes (printTail mem cmdBuffer t.lineCursorIndex.toNat ebp) (e.text.drop e.cursor) ↔
      charCode '%' ∉ e.text.drop e.cursor := by
  have hinside := e.inside
  have hindex := h.cursor
  have hline : ∀ (k : Nat) (hk : k < e.text.length), mem ((cmdBuffer + k) % 2 ^ 32) = e.text[k] := by
    intro k hk
    have hget := h.text k hk
    rw [List.getElem?_eq_getElem hk] at hget
    rw [hbuffer k (Nat.le_of_lt hk), Option.some.inj hget]
  have hend : mem ((cmdBuffer + e.text.length) % 2 ^ 32) = 0 := by
    rw [hbuffer _ (Nat.le_refl _), ← h.length]
    exact h.terminated hpos
  have hnonzero : 0 ∉ e.text := fun hmem => absurd (hprintable 0 hmem).1 (by decide)
  have hcursor : t.lineCursorIndex.toNat - 3 = e.cursor := by omega
  show Echoes (printf mem (cmdBuffer + (t.lineCursorIndex.toNat - 3)) ebp) _ ↔ _
  rw [hcursor]
  exact printf_echoes_iff (textAt_drop ⟨hline, hend, hnonzero⟩ _ hinside) ebp

end LuckOS.ShellEcho
