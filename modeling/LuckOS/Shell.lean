import LuckOS.FileSystem
import LuckOS.Runs
import Mathlib.Data.List.InsertIdx

/-!
# The line editor of `shell.c`

The shell reads one character at a time, shifts its command buffer in place, and splits the line into a
program and its arguments behind a new line. The indexes that are stored to are recorded for each of the
arrays, together with the calls of `exec`. As long as a line has at most 511 characters, the buffer and the
cursor are those of an editor on a list of characters.
-/

namespace LuckOS

namespace Shell

/-- The characters that end a token. -/
def separates (c : UInt8) : Bool := c == 0x20 || c == 0

/-- The variables of `run_program`; the bytes of an array are undefined before they are stored to. -/
structure Split where
  program : Int → Option UInt8
  argBuffer : Int → Option UInt8
  argBufferIndex : Int
  args : Int → Option Int
  splitStart : Int
  splitEnd : Int
  programGet : Bool
  inToken : Bool
  argsIndex : Int
  argsStores : List Int
  argBufferStores : List Int

/-- `memcpy` out of the command buffer. -/
def memcpy (dst : Int → Option UInt8) (offset : Int) (cmdBuffer : Int → UInt8) (start : Int)
    (length : Nat) :
    Int → Option UInt8 :=
  (List.range length).foldl (fun dst (k : Nat) =>
    Function.update dst (offset + k) (some (cmdBuffer (start + k)))) dst

namespace Split

/-- The variables at the start of the loop. -/
def start : Split := ⟨fun _ => none, fun _ => none, 0, fun _ => none, -1, -1, false, false, 0, [], []⟩

/-- The length that is copied; `min` is on `uint32`. -/
def length (s : Split) : Nat := min ((s.splitEnd - s.splitStart) % 2 ^ 32).toNat 127

/-- The first token. -/
def setProgram (cmdBuffer : Int → UInt8) (s : Split) : Split :=
  { s with
    program := Function.update (memcpy s.program 0 cmdBuffer s.splitStart s.length) s.length (some 0)
    programGet := true }

/-- A later token. -/
def addArg (cmdBuffer : Int → UInt8) (s : Split) : Split :=
  { s with
    argBuffer := Function.update (memcpy s.argBuffer s.argBufferIndex cmdBuffer s.splitStart s.length)
      (s.argBufferIndex + s.length) (some 0)
    argBufferStores := s.argBufferStores ++ (List.range (s.length + 1)).map fun k : Nat =>
      s.argBufferIndex + k
    args := Function.update s.args s.argsIndex (some s.argBufferIndex)
    argsStores := s.argsStores ++ [s.argsIndex]
    argBufferIndex := s.argBufferIndex + s.length + 1
    argsIndex := s.argsIndex + 1 }

/-- One round of the loop over the line. -/
def next (cmdBuffer : Int → UInt8) (s : Split) (i : Int) : Split :=
  if !s.inToken then
    if separates (cmdBuffer i) then s else { s with splitStart := i, inToken := true }
  else if separates (cmdBuffer i) then
    let s := { s with splitEnd := i, inToken := false }
    if !s.programGet then s.setProgram cmdBuffer else s.addArg cmdBuffer
  else s

end Split

/-- The loop of `run_program`. -/
def split (cmdBuffer : Int → UInt8) (cmdEndIndex : Int) : Split :=
  (List.range (cmdEndIndex + 1).toNat).foldl (fun s (i : Nat) => s.next cmdBuffer i) .start

/-- A call of `exec` in a child, with the line that was typed. -/
structure Exec where
  line : List UInt8
  program : Int → Option UInt8
  argsIndex : Int
  args : Int → Option Int
  argBuffer : Int → Option UInt8

/-- A character that `read_char` returns, and the answer of `fork` if it makes the shell run a program. -/
structure Input where
  c : BitVec 32
  forked : Bool

end Shell

open Shell

/-- The variables of `shell.c`, with the indexes stored to so far and the calls of `exec`. -/
structure Shell where
  cmdBuffer : Int → UInt8
  cmdEndIndex : Int
  lineCursorIndex : Int
  stores : List Int
  argsStores : List Int
  argBufferStores : List Int
  execs : List Exec

namespace Shell

def lineCursorIndexMin : Int := 3

def kheArrowLeft : BitVec 32 := 0x82

def kheArrowRight : BitVec 32 := 0x84

/-- `cmd_buffer[i] = c`. -/
def store (s : Shell) (i : Int) (c : UInt8) : Shell :=
  { s with cmdBuffer := Function.update s.cmdBuffer i c, stores := s.stores ++ [i] }

/-- The start of a line. The buffer keeps the line before. -/
def prompt (s : Shell) : Shell := { s with cmdEndIndex := 0, lineCursorIndex := 3 }

/-- The first `n` rounds of the loop that closes the gap in front of index `i`. -/
def shiftLeft (s : Shell) (i : Int) (n : Nat) : Shell :=
  (List.range n).foldl (fun s (k : Nat) => s.store (i + k - 1) (s.cmdBuffer (i + k))) s

/-- The first `n` rounds of the loop that makes room, from index `i` downwards. -/
def shiftRight (s : Shell) (i : Int) (n : Nat) : Shell :=
  (List.range n).foldl (fun s (k : Nat) => s.store (i - k + 1) (s.cmdBuffer (i - k))) s

/-- The branch of a backspace. -/
def erase (s : Shell) : Shell :=
  let s := s.shiftLeft (s.lineCursorIndex - 3) (s.cmdEndIndex - (s.lineCursorIndex - 3)).toNat
  let s := { s with cmdEndIndex := s.cmdEndIndex - 1 }
  let s := s.store s.cmdEndIndex 0
  { s with lineCursorIndex := s.lineCursorIndex - 1 }

/-- The branch of a character of the line. -/
def insert (s : Shell) (c : BitVec 32) : Shell :=
  let s := s.shiftRight (s.cmdEndIndex - 1) (s.cmdEndIndex - (s.lineCursorIndex - 3)).toNat
  let s := s.store (s.lineCursorIndex - 3) (UInt8.ofNat c.toNat)
  let s := { s with cmdEndIndex := s.cmdEndIndex + 1 }
  let s := s.store s.cmdEndIndex 0
  { s with lineCursorIndex := s.lineCursorIndex + 1 }

/-- The line that was typed. -/
def line (s : Shell) : List UInt8 := (List.range s.cmdEndIndex.toNat).map fun k : Nat => s.cmdBuffer k

/-- `run_program`. -/
def runProgram (s : Shell) (forked : Bool) : Shell :=
  let t := split s.cmdBuffer s.cmdEndIndex
  { s with
    argsStores := s.argsStores ++ t.argsStores
    argBufferStores := s.argBufferStores ++ t.argBufferStores
    execs := s.execs ++ if forked then [⟨s.line, t.program, t.argsIndex, t.args, t.argBuffer⟩] else [] }

/-- `strcmp` of a command of the shell and the buffer. -/
def comparesTo (s : Shell) (command : String) : Option Int :=
  let str1 := command.toList.map (fun c => UInt8.ofNat c.toNat) ++ [0]
  strcmp str1 ((List.range str1.length).map fun k : Nat => s.cmdBuffer k)

/-- The branch of a new line; the shell returns on `exit`. -/
def enter (s : Shell) (forked : Bool) : Option Shell :=
  if s.cmdEndIndex = 0 then some s.prompt
  else if s.comparesTo "exit" = some 0 then none
  else if s.comparesTo "clear" = some 0 then some s.prompt
  else some (s.runProgram forked).prompt

/-- One round of the loops of `run_shell`. The test for a backspace is not followed by an `else`. -/
def step (s : Shell) (input : Input) : Option Shell :=
  let c := input.c
  if c.toInt < 128 then
    if c = 8 ∧ s.lineCursorIndex - 3 = 0 then some s
    else
      let s := if c = 8 then s.erase else s
      if c = 12 then some s.prompt
      else if c = 10 then s.enter input.forked
      else if 32 ≤ c.toInt then some (s.insert c)
      else some s
  else if c = kheArrowLeft then
    some (if s.lineCursorIndex = lineCursorIndexMin then s
      else { s with lineCursorIndex := s.lineCursorIndex - 1 })
  else if c = kheArrowRight then
    some (if s.lineCursorIndex = s.cmdEndIndex + 3 then s
      else { s with lineCursorIndex := s.lineCursorIndex + 1 })
  else some s

/-- The start of `run_shell`. -/
def start (cmdBuffer : Int → UInt8) : Shell := (Shell.mk cmdBuffer 0 3 [] [] [] []).store 0 0 |>.prompt

end Shell

/-- A line of text with a cursor in it. -/
structure LineEditor (α : Type) where
  text : List α
  cursor : Nat
  inside : cursor ≤ text.length

namespace LineEditor

variable {α : Type}

theorem cursor_empty : 0 ≤ ([] : List α).length := Nat.le_refl 0

def empty : LineEditor α := ⟨[], 0, cursor_empty⟩

/-- Insert a character in front of the cursor. -/
def insert (e : LineEditor α) (c : α) : LineEditor α where
  text := e.text.insertIdx e.cursor c
  cursor := e.cursor + 1
  inside := by
    rw [List.length_insertIdx_of_le_length e.inside]
    exact Nat.succ_le_succ e.inside

/-- Delete the character in front of the cursor. -/
def delete (e : LineEditor α) : LineEditor α where
  text := if e.cursor = 0 then e.text else e.text.eraseIdx (e.cursor - 1)
  cursor := e.cursor - 1
  inside := by
    have hinside := e.inside
    split_ifs with hzero
    · omega
    · rw [List.length_eraseIdx_of_lt (by omega)]
      omega

def left (e : LineEditor α) : LineEditor α :=
  ⟨e.text, e.cursor - 1, Nat.le_trans (Nat.sub_le ..) e.inside⟩

def right (e : LineEditor α) : LineEditor α :=
  ⟨e.text, min (e.cursor + 1) e.text.length, Nat.min_le_right ..⟩

/-- What a key does that does not end the line. -/
def key (e : LineEditor UInt8) (c : BitVec 32) : LineEditor UInt8 :=
  if c = 8 then e.delete
  else if 32 ≤ c.toInt ∧ c.toInt < 128 then e.insert (UInt8.ofNat c.toNat)
  else if c = kheArrowLeft then e.left
  else if c = kheArrowRight then e.right
  else e

/-- The line behind a sequence of keys. -/
def keys (cs : List (BitVec 32)) : LineEditor UInt8 := cs.foldl key empty

variable {e : LineEditor UInt8}

/-- Only a character of the line makes it longer. -/
theorem length_key_le (c : BitVec 32) :
    (e.key c).text.length ≤ e.text.length + if 32 ≤ c.toInt ∧ c.toInt < 128 then 1 else 0 := by
  rw [key]
  by_cases hback : c = 8
  · have hdelete : e.delete.text.length ≤ e.text.length := by
      rw [delete]
      split
      · exact Nat.le_refl _
      · exact List.length_eraseIdx_le ..
    rw [if_pos hback]
    exact Nat.le_trans hdelete (Nat.le_add_right ..)
  · rw [if_neg hback]
    split_ifs with hprint hleft hright
    · rw [insert, List.length_insertIdx_of_le_length e.inside]
    · exact Nat.le_refl _
    · exact Nat.le_refl _
    · exact Nat.le_refl _

theorem length_keys_le (cs : List (BitVec 32)) : (keys cs).text.length ≤ cs.length := by
  induction cs using List.reverseRecOn with
  | nil => exact Nat.le_refl 0
  | append_singleton cs c ih =>
    have hkey := length_key_le (e := keys cs) c
    have hlast : keys (cs ++ [c]) = (keys cs).key c := by
      rw [keys, List.foldl_append]
      rfl
    rw [hlast, List.length_append]
    split_ifs at hkey <;> simp only [List.length_singleton] <;> omega

end LineEditor

namespace Shell

/-- The buffer and the cursor are those of the editor. -/
structure Shows (s : Shell) (e : LineEditor UInt8) : Prop where
  length : s.cmdEndIndex = e.text.length
  cursor : s.lineCursorIndex - 3 = e.cursor
  text : ∀ k : Nat, k < e.text.length → e.text[k]? = some (s.cmdBuffer k)
  terminated : 0 < s.cmdEndIndex → s.cmdBuffer s.cmdEndIndex = 0

variable {s t : Shell} {e : LineEditor UInt8} {input : Input}

/-! ## Shifting the buffer -/

theorem shiftLeft_eq (s : Shell) (i : Int) (n : Nat) : s.shiftLeft i n =
    { s with
      cmdBuffer := fun j => if i - 1 ≤ j ∧ j < i - 1 + n then s.cmdBuffer (j + 1) else s.cmdBuffer j
      stores := s.stores ++ (List.range n).map fun k : Nat => i + k - 1 } := by
  induction n with
  | zero =>
    have hsame : (fun j => if i - 1 ≤ j ∧ j < i - 1 + (0 : Nat) then s.cmdBuffer (j + 1)
      else s.cmdBuffer j) = s.cmdBuffer := by
      funext j
      exact if_neg (by omega)
    rw [hsame, List.range_zero, List.map_nil, List.append_nil]
    rfl
  | succ n ih =>
    have hlast : s.shiftLeft i (n + 1) =
      (s.shiftLeft i n).store (i + n - 1) ((s.shiftLeft i n).cmdBuffer (i + n)) := by
      rw [shiftLeft, List.range_succ, List.foldl_append]
      rfl
    rw [hlast, ih, store]
    congr 1
    · funext j
      by_cases hj : j = i + n - 1
      · rw [hj, Function.update_self]
        simp only
        rw [if_neg (by omega), if_pos (by omega)]
        congr 1
        omega
      · rw [Function.update_of_ne hj]
        exact if_congr (by omega) rfl rfl
    · rw [List.range_succ, List.map_append, List.map_singleton, List.append_assoc]

theorem shiftRight_eq (s : Shell) (i : Int) (n : Nat) : s.shiftRight i n =
    { s with
      cmdBuffer := fun j => if i + 1 - n < j ∧ j ≤ i + 1 then s.cmdBuffer (j - 1) else s.cmdBuffer j
      stores := s.stores ++ (List.range n).map fun k : Nat => i - k + 1 } := by
  induction n with
  | zero =>
    have hsame : (fun j => if i + 1 - (0 : Nat) < j ∧ j ≤ i + 1 then s.cmdBuffer (j - 1)
      else s.cmdBuffer j) = s.cmdBuffer := by
      funext j
      exact if_neg (by omega)
    rw [hsame, List.range_zero, List.map_nil, List.append_nil]
    rfl
  | succ n ih =>
    have hlast : s.shiftRight i (n + 1) =
      (s.shiftRight i n).store (i - n + 1) ((s.shiftRight i n).cmdBuffer (i - n)) := by
      rw [shiftRight, List.range_succ, List.foldl_append]
      rfl
    rw [hlast, ih, store]
    congr 1
    · funext j
      by_cases hj : j = i - n + 1
      · rw [hj, Function.update_self]
        simp only
        rw [if_neg (by omega), if_pos (by omega)]
        congr 1
        omega
      · rw [Function.update_of_ne hj]
        exact if_congr (by omega) rfl rfl
    · rw [List.range_succ, List.map_append, List.map_singleton, List.append_assoc]

/-! ## Keys of the line editor -/

/-- A key has changed the line to that of the editor, and it stored nothing behind the end of the line. -/
structure Edited (s t : Shell) (e : LineEditor UInt8) : Prop extends Shows t e where
  stores : ∀ i ∈ t.stores, i ∈ s.stores ∨ 0 ≤ i ∧ i ≤ e.text.length
  argsStores : t.argsStores = s.argsStores
  argBufferStores : t.argBufferStores = s.argBufferStores
  execs : t.execs = s.execs

theorem Shows.refl (h : Shows s e) : Edited s s e := ⟨h, fun _ => .inl, rfl, rfl, rfl⟩

/-- A backspace behind a character deletes it. -/
theorem Shows.erase (h : Shows s e) (hcursor : e.cursor ≠ 0) : Edited s s.erase e.delete := by
  obtain ⟨hlength, hindex, htext, -⟩ := h
  have hinside := e.inside
  have hdelete : e.delete.text = e.text.eraseIdx (e.cursor - 1) := if_neg hcursor
  have hshorter : e.delete.text.length = e.text.length - 1 := by
    rw [hdelete, List.length_eraseIdx_of_lt (by omega)]
  have hrounds : (s.cmdEndIndex - e.cursor).toNat = e.text.length - e.cursor := by omega
  have herase : s.erase =
      { s with
        cmdBuffer := Function.update (fun j => if (e.cursor : Int) - 1 ≤ j ∧
          j < (e.cursor : Int) - 1 + (e.text.length - e.cursor : Nat)
          then s.cmdBuffer (j + 1) else s.cmdBuffer j) (s.cmdEndIndex - 1) 0
        cmdEndIndex := s.cmdEndIndex - 1
        lineCursorIndex := s.lineCursorIndex - 1
        stores := s.stores ++ ((List.range (e.text.length - e.cursor)).map fun k : Nat =>
          (e.cursor : Int) + k - 1) ++
          [s.cmdEndIndex - 1] } := by
    rw [Shell.erase]
    simp only [shiftLeft_eq, store, hindex, hrounds]
  rw [herase]
  refine ⟨⟨?_, ?_, fun k hk => ?_, fun _ => ?_⟩, fun i hi => ?_, rfl, rfl, rfl⟩
  · show s.cmdEndIndex - 1 = _
    omega
  · show s.lineCursorIndex - 1 - 3 = ((e.cursor - 1 : Nat) : Int)
    omega
  · rw [hshorter] at hk
    have hne : (k : Int) ≠ s.cmdEndIndex - 1 := by omega
    simp only [Function.update_of_ne hne]
    rw [hdelete, List.getElem?_eraseIdx]
    by_cases hbefore : k < e.cursor - 1
    · rw [if_pos hbefore, if_neg (by omega)]
      exact htext k (by omega)
    · rw [if_neg hbefore, if_pos (by omega)]
      exact htext (k + 1) (by omega)
  · simp only [Function.update_self]
  · rcases List.mem_append.mp hi with hi | hi
    · rcases List.mem_append.mp hi with hi | hi
      · exact .inl hi
      · obtain ⟨k, hk, rfl⟩ := List.mem_map.mp hi
        have hlt := List.mem_range.mp hk
        exact .inr ⟨by omega, by omega⟩
    · rw [List.mem_singleton.mp hi]
      exact .inr ⟨by omega, by omega⟩

/-- A character is inserted in front of the cursor. -/
theorem Shows.insert (h : Shows s e) (c : BitVec 32) :
    Edited s (s.insert c) (e.insert (UInt8.ofNat c.toNat)) := by
  obtain ⟨hlength, hindex, htext, -⟩ := h
  have hinside := e.inside
  have hinsert : (e.insert (UInt8.ofNat c.toNat)).text =
    e.text.insertIdx e.cursor (UInt8.ofNat c.toNat) := rfl
  have hlonger : (e.insert (UInt8.ofNat c.toNat)).text.length = e.text.length + 1 := by
    rw [hinsert, List.length_insertIdx_of_le_length hinside]
  have hrounds : (s.cmdEndIndex - e.cursor).toNat = e.text.length - e.cursor := by omega
  have hinserted : s.insert c =
      { s with
        cmdBuffer := Function.update (Function.update
          (fun j => if s.cmdEndIndex - 1 + 1 - (e.text.length - e.cursor : Nat) < j ∧
            j ≤ s.cmdEndIndex - 1 + 1
            then s.cmdBuffer (j - 1) else s.cmdBuffer j) e.cursor (UInt8.ofNat c.toNat))
              (s.cmdEndIndex + 1) 0
        cmdEndIndex := s.cmdEndIndex + 1
        lineCursorIndex := s.lineCursorIndex + 1
        stores := s.stores ++ ((List.range (e.text.length - e.cursor)).map fun k : Nat =>
          s.cmdEndIndex - 1 - k + 1) ++
          [(e.cursor : Int)] ++ [s.cmdEndIndex + 1] } := by
    rw [Shell.insert]
    simp only [shiftRight_eq, store, hindex, hrounds]
  rw [hinserted]
  refine ⟨⟨?_, ?_, fun k hk => ?_, fun _ => ?_⟩, fun i hi => ?_, rfl, rfl, rfl⟩
  · show s.cmdEndIndex + 1 = _
    omega
  · show s.lineCursorIndex + 1 - 3 = ((e.cursor + 1 : Nat) : Int)
    omega
  · rw [hlonger] at hk
    have hne : (k : Int) ≠ s.cmdEndIndex + 1 := by omega
    simp only [Function.update_of_ne hne]
    rw [hinsert, List.getElem?_insertIdx]
    rcases Nat.lt_trichotomy k e.cursor with hbefore | rfl | hbehind
    · have hother : (k : Int) ≠ e.cursor := by omega
      rw [if_pos hbefore, Function.update_of_ne hother, if_neg (by omega)]
      exact htext k (by omega)
    · rw [if_neg (by omega), if_pos rfl, if_pos hinside, Function.update_self]
    · have hother : (k : Int) ≠ e.cursor := by omega
      have hpred : (k : Int) - 1 = (k - 1 : Nat) := by omega
      rw [if_neg (by omega), if_neg (by omega), Function.update_of_ne hother, if_pos (by omega), hpred]
      exact htext (k - 1) (by omega)
  · simp only [Function.update_self]
  · rcases List.mem_append.mp hi with hi | hi
    · rcases List.mem_append.mp hi with hi | hi
      · rcases List.mem_append.mp hi with hi | hi
        · exact .inl hi
        · obtain ⟨k, hk, rfl⟩ := List.mem_map.mp hi
          have hlt := List.mem_range.mp hk
          exact .inr ⟨by omega, by omega⟩
      · rw [List.mem_singleton.mp hi]
        exact .inr ⟨by omega, by omega⟩
    · rw [List.mem_singleton.mp hi]
      exact .inr ⟨by omega, by omega⟩

theorem Shows.left (h : Shows s e) : Edited s
    (if s.lineCursorIndex = lineCursorIndexMin then s
      else { s with lineCursorIndex := s.lineCursorIndex - 1 }) e.left := by
  obtain ⟨hlength, hindex, htext, hzero⟩ := h
  split_ifs with hmin
  · have hcursor : s.lineCursorIndex - 3 = (e.cursor - 1 : Nat) := by
      rw [lineCursorIndexMin] at hmin
      omega
    exact ⟨⟨hlength, hcursor, htext, hzero⟩, fun _ => .inl, rfl, rfl, rfl⟩
  · have hcursor : s.lineCursorIndex - 1 - 3 = (e.cursor - 1 : Nat) := by
      rw [lineCursorIndexMin] at hmin
      omega
    exact ⟨⟨hlength, hcursor, htext, hzero⟩, fun _ => .inl, rfl, rfl, rfl⟩

theorem Shows.right (h : Shows s e) : Edited s
    (if s.lineCursorIndex = s.cmdEndIndex + 3 then s
      else { s with lineCursorIndex := s.lineCursorIndex + 1 }) e.right := by
  obtain ⟨hlength, hindex, htext, hzero⟩ := h
  have hinside := e.inside
  split_ifs with hend
  · have hcursor : s.lineCursorIndex - 3 = (min (e.cursor + 1) e.text.length : Nat) := by omega
    exact ⟨⟨hlength, hcursor, htext, hzero⟩, fun _ => .inl, rfl, rfl, rfl⟩
  · have hcursor : s.lineCursorIndex + 1 - 3 = (min (e.cursor + 1) e.text.length : Nat) := by omega
    exact ⟨⟨hlength, hcursor, htext, hzero⟩, fun _ => .inl, rfl, rfl, rfl⟩

theorem LineEditor.delete_start (hcursor : e.cursor = 0) : e.delete = e := by
  obtain ⟨text, cursor, inside⟩ := e
  obtain rfl : cursor = 0 := hcursor
  rfl

/-- A key that does not end the line has the same effect on the buffer and on the editor. -/
theorem Shows.step (h : Shows s e) (hnewline : input.c ≠ 10) (hclear : input.c ≠ 12) :
    ∃ t, s.step input = some t ∧ Edited s t (e.key input.c) := by
  rw [Shell.step, LineEditor.key]
  by_cases hback : input.c = 8
  · have hsmall : input.c.toInt < 128 ∧ ¬ 32 ≤ input.c.toInt := by
      rw [hback]
      decide
    have hcursor := h.cursor
    simp only [if_pos hsmall.1, if_neg hsmall.2, if_neg hnewline, if_neg hclear, if_pos hback]
    by_cases hzero : e.cursor = 0
    · rw [if_pos ⟨hback, by omega⟩, LineEditor.delete_start hzero]
      exact ⟨s, rfl, h.refl⟩
    · rw [if_neg (fun hboth => hzero (by omega))]
      exact ⟨s.erase, rfl, h.erase hzero⟩
  · simp only [hback, false_and, if_false, if_neg hnewline, if_neg hclear]
    by_cases hsmall : input.c.toInt < 128
    · have hleft : input.c ≠ kheArrowLeft := by
        rintro heq
        rw [heq] at hsmall
        exact absurd hsmall (by decide)
      have hright : input.c ≠ kheArrowRight := by
        rintro heq
        rw [heq] at hsmall
        exact absurd hsmall (by decide)
      rw [if_pos hsmall, if_neg hleft, if_neg hright]
      by_cases hprint : 32 ≤ input.c.toInt
      · rw [if_pos hprint, if_pos ⟨hprint, hsmall⟩]
        exact ⟨_, rfl, h.insert input.c⟩
      · rw [if_neg hprint, if_neg (fun hboth => hprint hboth.1)]
        exact ⟨s, rfl, h.refl⟩
    · have hother : ¬ (32 ≤ input.c.toInt ∧ input.c.toInt < 128) := fun hboth => hsmall hboth.2
      rw [if_neg hsmall, if_neg hother]
      by_cases hleft : input.c = kheArrowLeft
      · rw [if_pos hleft, if_pos hleft]
        exact ⟨_, rfl, h.left⟩
      · rw [if_neg hleft, if_neg hleft]
        by_cases hright : input.c = kheArrowRight
        · rw [if_pos hright, if_pos hright]
          exact ⟨_, rfl, h.right⟩
        · rw [if_neg hright, if_neg hright]
          exact ⟨s, rfl, h.refl⟩

/-! ## Sequences of keys -/

/-- The line has at most 511 characters behind each of the keys. -/
def Short (cs : List (BitVec 32)) : Prop :=
  ∀ earlier, earlier <+: cs → (LineEditor.keys earlier).text.length ≤ 511

theorem short_of_length {cs : List (BitVec 32)} (h : cs.length ≤ 511) : Short cs :=
  fun earlier hearlier => Nat.le_trans (LineEditor.length_keys_le earlier)
    (Nat.le_trans hearlier.length_le h)

theorem shows_prompt (s : Shell) : Shows s.prompt LineEditor.empty :=
  ⟨rfl, rfl, fun k hk => absurd hk (Nat.not_lt_zero k), fun hpos => absurd hpos (Int.lt_irrefl 0)⟩

/-- The keys in front of the end of a line have the same effect on the buffer and on the editor, whatever
was typed before. The stores of short lines are inside of the buffer. -/
theorem line_editor_correct (s : Shell) {inputs : List Input}
    (hkeys : ∀ input ∈ inputs, input.c ≠ 10 ∧ input.c ≠ 12)
    (hshort : Short (inputs.map Input.c)) :
    ∃ t, Runs.Run (Runs.Steps Shell.step) s.prompt inputs t ∧
    Shows t (LineEditor.keys (inputs.map Input.c)) ∧
      (0 ≤ t.lineCursorIndex - 3 ∧ t.lineCursorIndex - 3 ≤ t.cmdEndIndex) ∧
      ∀ i ∈ t.stores, i ∈ s.stores ∨ 0 ≤ i ∧ i < 512 := by
  induction inputs using List.reverseRecOn with
  | nil =>
    have hzero : (0 : Int) ≤ 3 - 3 ∧ (3 : Int) - 3 ≤ 0 := by decide
    exact ⟨s.prompt, .nil _, shows_prompt s, hzero, fun _ => .inl⟩
  | append_singleton inputs input ih =>
    have hmap : (inputs ++ [input]).map Input.c = inputs.map Input.c ++ [input.c] := List.map_append ..
    have hlast : LineEditor.keys (inputs.map Input.c ++ [input.c]) =
      (LineEditor.keys (inputs.map Input.c)).key input.c := by
      rw [LineEditor.keys, List.foldl_append]
      rfl
    rw [hmap] at hshort ⊢
    obtain ⟨t, hrun, hshows, -, hstores⟩ :=
      ih (fun input hinput => hkeys input (List.mem_append_left _ hinput))
      fun earlier hearlier => hshort earlier (hearlier.trans (List.prefix_append ..))
    obtain ⟨hnewline, hclear⟩ := hkeys input (List.mem_append_right _ (List.mem_singleton_self input))
    obtain ⟨u, hstep, hedited⟩ := hshows.step hnewline hclear
    have hlength := hshort _ (List.prefix_refl _)
    rw [hlast] at hlength ⊢
    refine ⟨u, hrun.snoc hstep, hedited.toShows, ?_, fun i hi => ?_⟩
    · have hinside := ((LineEditor.keys (inputs.map Input.c)).key input.c).inside
      have hcursor := hedited.cursor
      have hend := hedited.length
      omega
    · rcases hedited.stores i hi with hold | hnew
      · exact hstores i hold
      · exact .inr ⟨hnew.1, by omega⟩

/-- A backspace, a character in the middle of the line and another at its end. -/
theorem line_editor_edits_ls : ∃ t, Runs.Run (Runs.Steps Shell.step) (Shell.start fun _ => 0).prompt
    ([108, 120, 8, 97, kheArrowLeft, 108, kheArrowLeft, kheArrowRight, 8, kheArrowRight,
      115].map fun c => ⟨c, true⟩) t ∧
      Shows t ⟨[108, 97, 115], 3, by decide⟩ := by
  obtain ⟨t, hrun, hshows, -⟩ := @line_editor_correct (Shell.start fun _ => 0)
    ([108, 120, 8, 97, kheArrowLeft, 108, kheArrowLeft, kheArrowRight, 8, kheArrowRight,
      115].map fun c => ⟨c, true⟩)
    (by decide) (short_of_length (by decide))
  exact ⟨t, hrun, hshows⟩

end Shell

end LuckOS
