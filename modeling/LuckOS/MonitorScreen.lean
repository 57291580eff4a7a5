import LuckOS.Monitor

/-!
# The text on the screen

A text is written to a grid without a last row. The screen shows the last 25 rows of the grid up to the
cursor, however often it was scrolled.
-/

namespace LuckOS

/-- A grid of 80 columns, with the cells that were written and the position of the next one. -/
structure Grid where
  cell : Nat → Nat → Option (BitVec 8)
  x : Nat
  y : Nat

namespace Grid

def empty : Grid := ⟨fun _ _ => none, 0, 0⟩

def newLine (g : Grid) : Grid := { g with x := 0, y := g.y + 1 }

/-- A character is written to the next cell. -/
def put (g : Grid) (c : BitVec 8) : Grid :=
  { g with cell := fun row column => if row = g.y ∧ column = g.x then some c else g.cell row column, x := g.x + 1 }

/-- A new line begins at a newline and behind column 79. -/
def write (g : Grid) (c : BitVec 8) : Grid :=
  if c = 0x0A then g.newLine else if (g.put c).x = 80 then (g.put c).newLine else g.put c

/-- A text on the grid. -/
def ofText (str : List (BitVec 8)) : Grid := str.foldl write empty

/-- The first row that is shown. -/
def top (g : Grid) : Nat := g.y - 24

end Grid

namespace Monitor

/-- A newline or a printable character. -/
def IsText (c : BitVec 8) : Prop := c = 0x0A ∨ 0x20 ≤ c.toNat ∧ c.toNat ≤ 0x7E

/-- A cell of the video memory: a character in white, or a blank. -/
def cellWord : Option (BitVec 8) → BitVec 16
  | none => blank
  | some c => c.setWidth 16 ||| cellAttribute colorWhite

/-- The screen shows the grid from row `top` on. -/
structure ShowsFrom (top : Nat) (s : Monitor) (g : Grid) : Prop where
  column : s.cursorX = g.x
  row : s.cursorY = (g.y : Int) - top
  cells : ∀ r < 25, ∀ column < 80,
    s.videoMemory ((r * 80 + column : Nat) : Int) = cellWord (g.cell (top + r) column)
  unwritten : ∀ row column, g.y < row ∨ row = g.y ∧ g.x ≤ column → g.cell row column = none

variable {s : Monitor} {g : Grid} {c : BitVec 8} {top first m : Nat}

/-! ## Scrolling -/

/-- The loop reads each cell before it is stored to. -/
theorem shiftCells_videoMemory (m : Nat) (j : Int) : (s.shiftCells m).videoMemory j =
    if 0 ≤ j ∧ j < m then s.videoMemory (j + 80) else s.videoMemory j := by
  induction m generalizing j with
  | zero =>
    rw [if_neg (by omega)]
    rfl
  | succ m ih =>
    have hstep : (s.shiftCells (m + 1)).videoMemory =
        Function.update (s.shiftCells m).videoMemory m ((s.shiftCells m).videoMemory (m + 80)) := by
      rw [shiftCells, List.range_succ, List.foldl_append]
      rfl
    rw [hstep]
    by_cases hj : j = m
    · rw [hj, Function.update_self, ih, if_neg (by omega), if_pos (by omega)]
    · rw [Function.update_of_ne hj, ih]
      by_cases hin : 0 ≤ j ∧ j < m
      · rw [if_pos hin, if_pos (by omega)]
      · rw [if_neg hin, if_neg (by omega)]

theorem clearCells_videoMemory (first m : Nat) (j : Int) : (s.clearCells first m).videoMemory j =
    if first ≤ j ∧ j < (first + m : Nat) then blank else s.videoMemory j := by
  induction m with
  | zero =>
    rw [if_neg (by omega)]
    rfl
  | succ m ih =>
    have hstep : (s.clearCells first (m + 1)).videoMemory =
        Function.update (s.clearCells first m).videoMemory ((first + m : Nat) : Int) blank := by
      rw [clearCells, List.range'_1_concat, List.foldl_append]
      rfl
    rw [hstep]
    by_cases hj : j = ((first + m : Nat) : Int)
    · rw [hj, Function.update_self, if_pos (by omega)]
    · rw [Function.update_of_ne hj, ih]
      by_cases hin : first ≤ j ∧ j < (first + m : Nat)
      · rw [if_pos hin, if_pos (by omega)]
      · rw [if_neg hin, if_neg (by omega)]

theorem scroll_videoMemory (hrow : 25 ≤ s.cursorY) (j : Int) : s.scroll.videoMemory j =
    if 1920 ≤ j ∧ j < 2000 then blank else if 0 ≤ j ∧ j < 1920 then s.videoMemory (j + 80)
    else s.videoMemory j := by
  have hscroll : s.scroll.videoMemory =
    ((s.shiftCells (24 * 80)).clearCells (24 * 80) 80).videoMemory := by
    rw [scroll, if_pos hrow]
  rw [hscroll, clearCells_videoMemory, shiftCells_videoMemory]
  rfl

/-- A scroll moves the row behind the screen to its last row, which is blank. -/
theorem ShowsFrom.scroll (h : ShowsFrom top s g)
    (htop : g.y < top + 25 ∧ g.top = top ∨ g.y = top + 25 ∧ g.x = 0 ∧ g.top = top + 1) :
    ShowsFrom g.top s.scroll g := by
  have hrow := h.row
  rcases htop with ⟨hlt, htop⟩ | ⟨hlast, hstart, htop⟩
  · rw [Monitor.scroll, if_neg (by omega), htop]
    exact h
  · have hscroll : 25 ≤ s.cursorY := by omega
    obtain ⟨t, hstored, heq⟩ := scroll_spec hscroll
    refine ⟨?_, ?_, fun r hr column hcolumn => ?_, h.unwritten⟩
    · rw [heq, ← h.column]
      exact hstored.column
    · rw [heq, htop, hlast]
      exact (by omega : (24 : Int) = ((top + 25 : Nat) : Int) - ((top + 1 : Nat) : Int))
    · rw [scroll_videoMemory hscroll, htop]
      by_cases hblank : r = 24
      · subst hblank
        rw [h.unwritten (top + 1 + 24) column (.inr ⟨by omega, by omega⟩), if_pos (by omega)]
        rfl
      · have hnext := h.cells (r + 1) (by omega) column hcolumn
        have hindex : ((r * 80 + column : Nat) : Int) + 80 =
          (((r + 1) * 80 + column : Nat) : Int) := by omega
        have hrow' : top + 1 + r = top + (r + 1) := by omega
        rw [if_neg (by omega), if_pos (by omega), hindex, hnext, hrow']

/-! ## Writing -/

theorem ShowsFrom.newLine (h : ShowsFrom top s g) :
    ShowsFrom top { s with cursorX := 0, cursorY := s.cursorY + 1 } g.newLine := by
  have hrow := h.row
  refine ⟨rfl, ?_, h.cells, fun row column hout => h.unwritten row column (.inl ?_)⟩
  · exact (by omega : s.cursorY + 1 = ((g.y + 1 : Nat) : Int) - top)
  · have hnext : g.newLine.y = g.y + 1 := rfl
    omega

theorem ShowsFrom.put (h : ShowsFrom top s g) (hle : top ≤ g.y) (hrow : g.y < top + 25)
    (hcolumn : g.x < 80) (c : BitVec 8) :
    ShowsFrom top { s.store (s.cursorY * 80 + s.cursorX) (cellWord (some c)) with
      cursorX := s.cursorX + 1 } (g.put c) := by
  have hindex : s.cursorY * 80 + s.cursorX = (((g.y - top) * 80 + g.x : Nat) : Int) := by
    rw [h.row, h.column]
    omega
  refine ⟨?_, h.row, fun r hr column hcolumn' => ?_, fun row column hout => ?_⟩
  · exact (by rw [h.column]; rfl : s.cursorX + 1 = ((g.x + 1 : Nat) : Int))
  · change Function.update s.videoMemory _ _ _ =
      cellWord (if top + r = g.y ∧ column = g.x then some c else g.cell (top + r) column)
    rw [hindex]
    by_cases hhere : top + r = g.y ∧ column = g.x
    · have hsame : r * 80 + column = (g.y - top) * 80 + g.x := by omega
      rw [if_pos hhere, hsame, Function.update_self]
    · have hother : ((r * 80 + column : Nat) : Int) ≠ (((g.y - top) * 80 + g.x : Nat) : Int) := by omega
      rw [if_neg hhere, Function.update_of_ne hother]
      exact h.cells r hr column hcolumn'
  · have hx : (g.put c).x = g.x + 1 := rfl
    have hy : (g.put c).y = g.y := rfl
    rw [hx, hy] at hout
    exact (if_neg (by omega)).trans (h.unwritten row column (by omega))

theorem ShowsFrom.moveCursorPosition (h : ShowsFrom top s g) : ShowsFrom top s.moveCursorPosition g :=
  ⟨h.column, h.row, h.cells, h.unwritten⟩

/-- The screen shows the last rows of the grid. -/
structure Shows (s : Monitor) (g : Grid) : Prop where
  shown : ShowsFrom g.top s g
  inLine : g.x < 80

theorem Shows.bounds (h : Shows s g) :
    (0 ≤ s.cursorX ∧ s.cursorX < 80) ∧ 0 ≤ s.cursorY ∧ s.cursorY < 25 := by
  have hcolumn := h.shown.column
  have hrow := h.shown.row
  have hline := h.inLine
  rw [Grid.top] at hrow
  omega

/-- A row is left, and the screen is scrolled if it was the last one. -/
theorem ShowsFrom.newLine_scroll (h : ShowsFrom g.top s g) :
    Shows { s with cursorX := 0, cursorY := s.cursorY + 1 }.scroll.moveCursorPosition g.newLine := by
  have hy : g.newLine.y = g.y + 1 := rfl
  have hx : g.newLine.x = 0 := rfl
  refine ⟨(h.newLine.scroll ?_).moveCursorPosition, by rw [hx]; decide⟩
  rw [Grid.top, Grid.top, hy, hx]
  omega

theorem writeChar_newline (h : Shows s g) (color : BitVec 8) :
    Shows (s.writeChar 0x0A color) g.newLine := by
  obtain ⟨⟨hx, hx'⟩, hy, hy'⟩ := h.bounds
  have hput : s.putChar 0x0A color = { s with cursorX := 0, cursorY := s.cursorY + 1 } := by
    rw [putChar, if_neg (fun heq => absurd heq.1 (by decide)), if_neg (by decide),
      if_neg (by decide), if_pos rfl,
      int16_of_bounds (by omega) (by omega)]
  have hwrap : ({ s with cursorX := 0, cursorY := s.cursorY + 1 } : Monitor).wrapLine =
      { s with cursorX := 0, cursorY := s.cursorY + 1 } := if_neg (by decide : ¬ (80 : Int) ≤ 0)
  rw [writeChar, hput, hwrap]
  exact h.shown.newLine_scroll

/-- A printable character is stored with the attribute of its colour. -/
theorem putChar_print (h : Shows s g) (hlo : 0x20 ≤ c.toNat) (hhi : c.toNat ≤ 0x7E) :
    s.putChar c colorWhite =
    { s.store (s.cursorY * 80 + s.cursorX) (cellWord (some c)) with cursorX := s.cursorX + 1 } := by
  obtain ⟨⟨hx, hx'⟩, -, -⟩ := h.bounds
  have hcontrol : ∀ k : BitVec 8, k.toNat < 0x20 → c ≠ k := by
    rintro k hk rfl
    omega
  have hmsb : c.msb = false := BitVec.msb_eq_false_iff_two_mul_lt.mpr (by omega)
  have hvalue : 0x20 ≤ c.toInt := by
    rw [BitVec.toInt_eq_toNat_of_msb hmsb]
    omega
  rw [putChar, if_neg fun heq => hcontrol 0x08 (by decide) heq.1, if_neg (hcontrol 0x09 (by decide)),
    if_neg (hcontrol 0x0D (by decide)), if_neg (hcontrol 0x0A (by decide)), if_pos hvalue,
    int16_of_bounds (by omega) (by omega), BitVec.signExtend_eq_setWidth_of_msb_false hmsb]
  rfl

theorem writeChar_print (h : Shows s g) (hlo : 0x20 ≤ c.toNat) (hhi : c.toNat ≤ 0x7E) :
    Shows (s.writeChar c colorWhite) (if (g.put c).x = 80 then (g.put c).newLine else g.put c) := by
  obtain ⟨⟨hx, hx'⟩, hy, hy'⟩ := h.bounds
  have hline := h.inLine
  have htop : g.top = g.y - 24 := rfl
  have hput := h.shown.put (by omega) (by omega) hline c
  have hputX : (g.put c).x = g.x + 1 := rfl
  rw [writeChar, putChar_print h hlo hhi]
  generalize hstored : s.store (s.cursorY * 80 + s.cursorX) (cellWord (some c)) = t at hput
  have hcolumn : s.cursorX = g.x := h.shown.column
  have hrow : t.cursorY = s.cursorY := by
    rw [← hstored]
    rfl
  by_cases hlast : g.x = 79
  · have hwrap : ({ t with cursorX := s.cursorX + 1 } : Monitor).wrapLine =
      { t with cursorX := 0, cursorY := t.cursorY + 1 } := by
      have hend : 80 ≤ s.cursorX + 1 := by omega
      have hnext : int16 (t.cursorY + 1) = t.cursorY + 1 := int16_of_bounds (by omega) (by omega)
      rw [← hnext]
      exact if_pos hend
    rw [hwrap, if_pos (by omega)]
    exact ShowsFrom.newLine_scroll (s := { t with cursorX := s.cursorX + 1 }) hput
  · have hwrap : ({ t with cursorX := s.cursorX + 1 } : Monitor).wrapLine =
      { t with cursorX := s.cursorX + 1 } := by
      have hend : ¬ 80 ≤ s.cursorX + 1 := by omega
      exact if_neg hend
    rw [hwrap, if_neg (by omega)]
    refine ⟨(hput.scroll (.inl ⟨?_, rfl⟩)).moveCursorPosition, by omega⟩
    exact (by omega : g.y < g.top + 25)

theorem Shows.writeChar (h : Shows s g) (hc : IsText c) :
    Shows (s.writeChar c colorWhite) (g.write c) := by
  rw [Grid.write]
  rcases hc with rfl | ⟨hlo, hhi⟩
  · rw [if_pos rfl]
    exact writeChar_newline h colorWhite
  · have hnewline : c ≠ 0x0A := by
      rintro rfl
      exact absurd hlo (by decide)
    rw [if_neg hnewline]
    exact writeChar_print h hlo hhi

theorem Shows.writeString {str : List (BitVec 8)} (h : Shows s g) (htext : ∀ c ∈ str, IsText c) :
    Shows (s.writeString str colorWhite) (str.foldl Grid.write g) := by
  induction str generalizing s g with
  | nil => exact h
  | cons c str ih =>
    obtain ⟨hc, hstr⟩ := List.forall_mem_cons.mp htext
    have hzero : c ≠ 0 := by
      rintro rfl
      rcases hc with hc | hc
      · exact absurd hc (by decide)
      · exact absurd hc.1 (by decide)
    rw [Monitor.writeString, if_neg hzero]
    exact ih (h.writeChar hc) hstr

/-- A cleared screen shows the empty grid. -/
theorem shows_clear (s : Monitor) : Shows s.clear Grid.empty := by
  refine ⟨⟨rfl, rfl, fun r hr column hcolumn => ?_, fun _ _ _ => rfl⟩, by decide⟩
  have hmemory : ∀ t : Monitor, ({ t with
    cursorX := 0, cursorY := 0 } : Monitor).moveCursorPosition.videoMemory = t.videoMemory :=
    fun _ => rfl
  rw [clear, hmemory, clearCells_videoMemory, if_pos (by omega)]
  rfl

/-- After a text was printed to a cleared screen, the screen shows the last 25 rows of the text, and the
cursor is behind its end. -/
theorem screen_shows_last_rows (s : Monitor) {str : List (BitVec 8)} (htext : ∀ c ∈ str, IsText c) :
    (∀ r < 25, ∀ column < 80, (s.clear.print str).videoMemory ((r * 80 + column : Nat) : Int) =
      cellWord ((Grid.ofText str).cell ((Grid.ofText str).y - 24 + r) column)) ∧
    (s.clear.print str).cursorX = (Grid.ofText str).x ∧
    (s.clear.print str).cursorY = ((Grid.ofText str).y - ((Grid.ofText str).y - 24) : Nat) := by
  have hshown := ((shows_clear s).writeString htext).shown
  refine ⟨hshown.cells, hshown.column, hshown.row.trans ?_⟩
  exact (Int.ofNat_sub (Nat.sub_le ..)).symm

/-- After 25 lines the first one has left the screen. -/
theorem screen_shows_line_26 : ((start (fun _ => 0) 0).clear.print
      (List.replicate 25 0x0A ++ [0x41])).videoMemory 1920 = 0x0741 := by
  have htext : ∀ c ∈ List.replicate 25 0x0A ++ [0x41], IsText c := by
    unfold IsText
    decide
  have hcell := (screen_shows_last_rows (start (fun _ => 0) 0) htext).1 24 (by decide) 0 (by decide)
  have hindex : ((24 * 80 + 0 : Nat) : Int) = 1920 := rfl
  have hword : cellWord ((Grid.ofText (List.replicate 25 0x0A ++ [0x41])).cell
      ((Grid.ofText (List.replicate 25 0x0A ++ [0x41])).y - 24 + 24) 0) = 0x0741 := by decide
  rw [hindex, hword] at hcell
  exact hcell

end Monitor

end LuckOS
