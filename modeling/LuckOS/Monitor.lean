import Mathlib.Algebra.Group.Nat.Defs
import Mathlib.Algebra.Group.Int.Defs
import Mathlib.Data.List.Basic
import Mathlib.Logic.Function.Basic

/-!
# The text screen of `monitor/monitor.c`

The cursor is a pair of `int16`, which a move changes by any `int32`. Stores to the video memory are
recorded by their index. In every run the cursor stays on the 80 columns and 25 rows of the screen, and
so do all stores.
-/

namespace LuckOS

/-- The value of an `int` that is stored to a variable of type `int16`. -/
def int16 (n : Int) : Int := Int.bmod n (2 ^ 16)

/-- The value of a sum of `int32`. -/
def int32 (n : Int) : Int := Int.bmod n (2 ^ 32)

/-- `div` of `utils/math.c`; the division of C truncates. -/
def floorDiv (x n : Int) : Int := if 0 ≤ x then x.tdiv n else (x - n + 1).tdiv n

/-- `mod` of `utils/math.c`. -/
def floorMod (x n : Int) : Int := (x.tmod n + n).tmod n

/-- The video memory, with the indexes stored to so far, the cursor, and the location of the cursor that
was sent to the VGA board. -/
structure Monitor where
  videoMemory : Int → BitVec 16
  stores : List Int
  cursorX : Int
  cursorY : Int
  cursorLocation : BitVec 16

namespace Monitor

def colorBlack : BitVec 8 := 0
def colorWhite : BitVec 8 := 7
def backColour : BitVec 8 := colorBlack
def foreColour : BitVec 8 := colorWhite

/-- The upper half of a cell: the background and a foreground colour. -/
def cellAttribute (color : BitVec 8) : BitVec 16 :=
  ((backColour <<< 4 ||| (color &&& 0x0F)).setWidth 16) <<< 8

def blank : BitVec 16 := 0x20 ||| cellAttribute foreColour

/-- `video_memory[i] = value`. -/
def store (s : Monitor) (i : Int) (value : BitVec 16) : Monitor :=
  { s with videoMemory := Function.update s.videoMemory i value, stores := s.stores ++ [i] }

/-- `move_cursor_position`. -/
def moveCursorPosition (s : Monitor) : Monitor :=
  { s with cursorLocation := BitVec.ofInt 16 (s.cursorY * 80 + s.cursorX) }

/-- The tests of `monitor_move_cursor` for a row that is not on the screen. -/
def clampRow (s : Monitor) : Monitor :=
  let s := if s.cursorY < 0 then { s with cursorX := 0, cursorY := 0 } else s
  if 25 ≤ s.cursorY then { s with cursorX := 79, cursorY := 24 } else s

/-- `monitor_move_cursor`. -/
def moveCursor (s : Monitor) (deltaX deltaY : BitVec 32) : Monitor :=
  let x := int16 (int32 (s.cursorX + deltaX.toInt))
  let yOffset := floorDiv x 80
  let s := { s with cursorX := int16 (floorMod x 80), cursorY := int16 (int32 (s.cursorY + int32 (deltaY.toInt + yOffset))) }
  s.clampRow.moveCursorPosition

/-- The loop that moves rows up, over the first `n` cells. -/
def shiftCells (s : Monitor) (n : Nat) : Monitor :=
  (List.range n).foldl (fun s (i : Nat) => s.store i (s.videoMemory (i + 80))) s

/-- The loops that clear `n` cells from `first` on. -/
def clearCells (s : Monitor) (first n : Nat) : Monitor :=
  (List.range' first n).foldl (fun s (i : Nat) => s.store i blank) s

/-- `scroll`. -/
def scroll (s : Monitor) : Monitor :=
  if 25 ≤ s.cursorY then { (s.shiftCells (24 * 80)).clearCells (24 * 80) 80 with cursorY := 24 } else s

/-- `monitor_clear`. -/
def clear (s : Monitor) : Monitor :=
  { s.clearCells 0 (80 * 25) with cursorX := 0, cursorY := 0 }.moveCursorPosition

/-- The next column that is divisible by 8. -/
def tabStop (x : Int) : Int := (BitVec.ofInt 32 (x + 8) &&& ~~~(8 - 1)).toInt

/-- What `monitor_write_char_with_color` does with a character. A `char` is signed. -/
def putChar (s : Monitor) (c color : BitVec 8) : Monitor :=
  if c = 0x08 ∧ s.cursorX ≠ 0 then { s with cursorX := int16 (s.cursorX - 1) }
  else if c = 0x09 then { s with cursorX := int16 (tabStop s.cursorX) }
  else if c = 0x0D then { s with cursorX := 0 }
  else if c = 0x0A then { s with cursorX := 0, cursorY := int16 (s.cursorY + 1) }
  else if 0x20 ≤ c.toInt then
    { s.store (s.cursorY * 80 + s.cursorX) (c.signExtend 16 ||| cellAttribute color) with
      cursorX := int16 (s.cursorX + 1) }
  else s

/-- The new line behind the last column. -/
def wrapLine (s : Monitor) : Monitor :=
  if 80 ≤ s.cursorX then { s with cursorX := 0, cursorY := int16 (s.cursorY + 1) } else s

/-- `monitor_write_char_with_color`. -/
def writeChar (s : Monitor) (c color : BitVec 8) : Monitor :=
  (s.putChar c color).wrapLine.scroll.moveCursorPosition

/-- `monitor_write_string_with_color`. -/
def writeString (s : Monitor) : List (BitVec 8) → BitVec 8 → Monitor
  | [], _ => s
  | c :: str, color => if c = 0 then s else (s.writeChar c color).writeString str color

/-- `monitor_print`. -/
def print (s : Monitor) (str : List (BitVec 8)) : Monitor := s.writeString str colorWhite

/-- The operations on the screen. -/
inductive Op where
  | clear
  | writeChar (c color : BitVec 8)
  | moveCursor (deltaX deltaY : BitVec 32)

def step (s : Monitor) : Op → Monitor
  | .clear => s.clear
  | .writeChar c color => s.writeChar c color
  | .moveCursor deltaX deltaY => s.moveCursor deltaX deltaY

def run (s : Monitor) (ops : List Op) : Monitor := ops.foldl step s

/-- The state at the start of the kernel. -/
def start (videoMemory : Int → BitVec 16) (cursorLocation : BitVec 16) : Monitor :=
  ⟨videoMemory, [], 0, 0, cursorLocation⟩

/-- The cursor is on the screen, and nothing was stored outside of it. -/
structure OnScreen (s : Monitor) : Prop where
  column : 0 ≤ s.cursorX ∧ s.cursorX < 80
  row : 0 ≤ s.cursorY ∧ s.cursorY < 25
  stores : ∀ i ∈ s.stores, 0 ≤ i ∧ i < 2000

variable {s : Monitor} {n : Int}

theorem int16_of_bounds (hlo : -2 ^ 15 ≤ n) (hhi : n < 2 ^ 15) : int16 n = n := by
  rw [int16, Int.bmod_def]
  omega

/-! ## Loops over the video memory -/

/-- Only the video memory has changed, and the stores were to cells from `first` up to `last`. -/
structure StoredTo (first last : Nat) (s t : Monitor) : Prop where
  column : t.cursorX = s.cursorX
  row : t.cursorY = s.cursorY
  stores : ∀ i ∈ t.stores, i ∈ s.stores ∨ (first : Int) ≤ i ∧ i < last

variable {t : Monitor} {first last m k : Nat}

theorem StoredTo.refl (s : Monitor) : StoredTo first last s s := ⟨rfl, rfl, fun _ => .inl⟩

theorem StoredTo.store (h : StoredTo first last s t) (hlo : first ≤ k) (hhi : k < last)
    (value : BitVec 16) :
    StoredTo first last s (t.store k value) := by
  refine ⟨h.column, h.row, fun i hi => ?_⟩
  rcases List.mem_append.mp hi with hi | hi
  · exact h.stores i hi
  · rw [List.mem_singleton.mp hi]
    omega

theorem StoredTo.trans {u : Monitor} (h : StoredTo first last s t) (h' : StoredTo first last t u) :
    StoredTo first last s u :=
  ⟨h'.column.trans h.column, h'.row.trans h.row, fun i hi => (h'.stores i hi).elim (h.stores i) .inr⟩

theorem storedTo_shiftCells (hm : m ≤ last) : StoredTo 0 last s (s.shiftCells m) := by
  induction m with
  | zero => exact .refl s
  | succ m ih =>
    rw [shiftCells, List.range_succ, List.foldl_append]
    exact (ih (by omega)).store (Nat.zero_le _) hm _

theorem storedTo_clearCells (hfirst : first ≤ k) (hlast : k + m ≤ last) :
    StoredTo first last s (s.clearCells k m) := by
  induction m with
  | zero => exact .refl s
  | succ m ih =>
    rw [clearCells, List.range'_1_concat, List.foldl_append]
    exact (ih (by omega)).store (by omega) (by omega) _

/-- The stores of a scroll are to the screen, and the cursor comes to the last row. -/
theorem scroll_spec (hrow : 25 ≤ s.cursorY) :
    ∃ t, StoredTo 0 2000 s t ∧ s.scroll = { t with cursorY := 24 } :=
  ⟨(s.shiftCells (24 * 80)).clearCells (24 * 80) 80,
    (storedTo_shiftCells (by decide)).trans (storedTo_clearCells (by decide) (by decide)), if_pos hrow⟩

theorem clear_spec (s : Monitor) :
    ∃ t, StoredTo 0 2000 s t ∧ s.clear = { t with cursorX := 0, cursorY := 0 }.moveCursorPosition :=
  ⟨s.clearCells 0 (80 * 25), storedTo_clearCells (by decide) (by decide), rfl⟩

/-! ## The operations -/

/-- The cursor is at most one column or one row behind the screen, and not both. -/
structure NearScreen (s : Monitor) : Prop where
  column : 0 ≤ s.cursorX ∧ s.cursorX ≤ 80
  row : 0 ≤ s.cursorY ∧ s.cursorY ≤ 25
  last : s.cursorX = 80 → s.cursorY < 25
  stores : ∀ i ∈ s.stores, 0 ≤ i ∧ i < 2000

theorem OnScreen.near (h : OnScreen s) : NearScreen s :=
  ⟨⟨h.column.1, Int.le_of_lt h.column.2⟩, ⟨h.row.1, Int.le_of_lt h.row.2⟩, fun _ => h.row.2, h.stores⟩

theorem OnScreen.moveCursorPosition (h : OnScreen s) :
    OnScreen s.moveCursorPosition := ⟨h.column, h.row, h.stores⟩

/-- A new line and a scroll repair the cursor. -/
theorem NearScreen.wrapLine (h : NearScreen s) : NearScreen s.wrapLine ∧ s.wrapLine.cursorX < 80 := by
  obtain ⟨hcolumn, hrow, hlast, hstores⟩ := h
  rw [Monitor.wrapLine]
  split_ifs with hwrap
  · have hy := hlast (by omega)
    have hnext : int16 (s.cursorY + 1) = s.cursorY + 1 := int16_of_bounds (by omega) (by omega)
    have hzero : (0 : Int) ≤ 0 ∧ (0 : Int) ≤ 80 := by decide
    have hbelow : (0 : Int) < 80 := by decide
    rw [hnext]
    exact ⟨⟨hzero, (by omega : 0 ≤ s.cursorY + 1 ∧ s.cursorY + 1 ≤ 25), nofun, hstores⟩, hbelow⟩
  · exact ⟨⟨hcolumn, hrow, hlast, hstores⟩, by omega⟩

theorem NearScreen.scroll (h : NearScreen s) (hcolumn : s.cursorX < 80) : OnScreen s.scroll := by
  by_cases hrow : 25 ≤ s.cursorY
  · obtain ⟨t, hstored, hscroll⟩ := scroll_spec hrow
    have hlast : (0 : Int) ≤ 24 ∧ (24 : Int) < 25 := by decide
    rw [hscroll]
    refine ⟨?_, hlast, fun i hi => (hstored.stores i hi).elim (h.stores i) fun hi => hi⟩
    rw [hstored.column]
    exact ⟨h.column.1, hcolumn⟩
  · rw [Monitor.scroll, if_neg hrow]
    exact ⟨⟨h.column.1, hcolumn⟩, ⟨h.row.1, by omega⟩, h.stores⟩

theorem onScreen_clear (hstores : ∀ i ∈ s.stores, 0 ≤ i ∧ i < 2000) : OnScreen s.clear := by
  obtain ⟨t, hstored, hclear⟩ := clear_spec s
  have hcolumn : (0 : Int) ≤ 0 ∧ (0 : Int) < 80 := by decide
  have hrow : (0 : Int) ≤ 0 ∧ (0 : Int) < 25 := by decide
  rw [hclear]
  exact ⟨hcolumn, hrow, fun i hi => (hstored.stores i hi).elim (hstores i) fun hi => hi⟩

/-- A tab moves the cursor to the end of the line at most. -/
theorem tabStop_bounds (h : 0 ≤ n ∧ n < 80) : 0 ≤ tabStop n ∧ tabStop n ≤ 80 := by
  have hall : ∀ k : Nat, k < 80 → 0 ≤ tabStop k ∧ tabStop k ≤ 80 := by decide
  obtain ⟨k, rfl⟩ := Int.eq_ofNat_of_zero_le h.1
  exact hall k (by omega)

/-- A character moves the cursor to the column behind the line at most, and it is stored on the screen. -/
theorem OnScreen.putChar (h : OnScreen s) (c color : BitVec 8) : NearScreen (s.putChar c color) := by
  obtain ⟨⟨hx, hx'⟩, ⟨hy, hy'⟩, hstores⟩ := h
  have hzero : (0 : Int) ≤ 0 ∧ (0 : Int) ≤ 80 := by decide
  rw [Monitor.putChar]
  split_ifs with hback htab hreturn hnewline hprint
  · rw [int16_of_bounds (by omega) (by omega)]
    exact ⟨(by omega : 0 ≤ s.cursorX - 1 ∧ s.cursorX - 1 ≤ 80), ⟨hy, Int.le_of_lt hy'⟩,
      fun _ => hy', hstores⟩
  · obtain ⟨hlo, hhi⟩ := tabStop_bounds ⟨hx, hx'⟩
    rw [int16_of_bounds (by omega) (by omega)]
    exact ⟨⟨hlo, hhi⟩, ⟨hy, Int.le_of_lt hy'⟩, fun _ => hy', hstores⟩
  · exact ⟨hzero, ⟨hy, Int.le_of_lt hy'⟩, nofun, hstores⟩
  · rw [int16_of_bounds (by omega) (by omega)]
    exact ⟨hzero, (by omega : 0 ≤ s.cursorY + 1 ∧ s.cursorY + 1 ≤ 25), nofun, hstores⟩
  · rw [int16_of_bounds (by omega) (by omega)]
    refine ⟨(by omega : 0 ≤ s.cursorX + 1 ∧ s.cursorX + 1 ≤ 80), ⟨hy, Int.le_of_lt hy'⟩,
      fun _ => hy', fun i hi => ?_⟩
    rcases List.mem_append.mp hi with hi | hi
    · exact hstores i hi
    · rw [List.mem_singleton.mp hi]
      omega
  · exact OnScreen.near ⟨⟨hx, hx'⟩, ⟨hy, hy'⟩, hstores⟩

theorem OnScreen.writeChar (h : OnScreen s) (c color : BitVec 8) : OnScreen (s.writeChar c color) := by
  obtain ⟨hnear, hcolumn⟩ := (h.putChar c color).wrapLine
  exact (hnear.scroll hcolumn).moveCursorPosition

theorem floorMod_bounds (hn : 0 < n) (x : Int) : 0 ≤ floorMod x n ∧ floorMod x n < n := by
  have hlt := Int.tmod_lt_of_pos (x.tmod n + n) hn
  have hle : 0 ≤ x.tmod n + n := by
    have hlower := Int.lt_tmod_of_pos x hn
    omega
  exact ⟨Int.tmod_nonneg n hle, hlt⟩

/-- The tests repair any row. -/
theorem onScreen_clampRow (hcolumn : 0 ≤ s.cursorX ∧ s.cursorX < 80)
    (hstores : ∀ i ∈ s.stores, 0 ≤ i ∧ i < 2000) :
    OnScreen s.clampRow := by
  have hzero : (0 : Int) ≤ 0 ∧ (0 : Int) < 80 ∧ (0 : Int) < 25 ∧ ¬ (25 : Int) ≤ 0 := by decide
  have hlast : (0 : Int) ≤ 79 ∧ (79 : Int) < 80 ∧ (0 : Int) ≤ 24 ∧ (24 : Int) < 25 := by decide
  rw [clampRow]
  by_cases hneg : s.cursorY < 0
  · rw [if_pos hneg]
    simp only [if_neg hzero.2.2.2]
    exact ⟨⟨hzero.1, hzero.2.1⟩, ⟨hzero.1, hzero.2.2.1⟩, hstores⟩
  · rw [if_neg hneg]
    by_cases hbelow : 25 ≤ s.cursorY
    · simp only [if_pos hbelow]
      exact ⟨⟨hlast.1, hlast.2.1⟩, hlast.2.2, hstores⟩
    · simp only [if_neg hbelow]
      exact ⟨hcolumn, ⟨by omega, by omega⟩, hstores⟩

theorem OnScreen.moveCursor (h : OnScreen s) (deltaX deltaY : BitVec 32) :
    OnScreen (s.moveCursor deltaX deltaY) := by
  obtain ⟨hlo, hhi⟩ := floorMod_bounds (n := 80) (by decide) (int16 (int32 (s.cursorX + deltaX.toInt)))
  rw [Monitor.moveCursor, int16_of_bounds (by omega) (by omega)]
  exact OnScreen.moveCursorPosition (onScreen_clampRow ⟨hlo, hhi⟩ h.stores)

/-- One operation keeps the cursor and the stores on the screen. -/
theorem OnScreen.step (h : OnScreen s) (op : Op) : OnScreen (s.step op) := by
  cases op with
  | clear => exact onScreen_clear h.stores
  | writeChar c color => exact h.writeChar c color
  | moveCursor deltaX deltaY => exact h.moveCursor deltaX deltaY

theorem OnScreen.run (h : OnScreen s) (ops : List Op) : OnScreen (s.run ops) := by
  induction ops generalizing s with
  | nil => exact h
  | cons op ops ih => exact ih (h.step op)

/-- After every sequence of operations the cursor is on the screen, and so were all stores. -/
theorem cursor_stays_on_screen (videoMemory : Int → BitVec 16) (cursorLocation : BitVec 16)
    (ops : List Op) :
    OnScreen ((start videoMemory cursorLocation).run ops) := by
  have hcolumn : (0 : Int) ≤ 0 ∧ (0 : Int) < 80 := by decide
  have hrow : (0 : Int) ≤ 0 ∧ (0 : Int) < 25 := by decide
  apply OnScreen.run
  exact ⟨hcolumn, hrow, nofun⟩

end Monitor

end LuckOS
