import LuckOS.KeyboardInput

/-!
# Scancodes

`process_scancode` of `driver/keyhelp.c`: the static variables, the tables of the simple and of the
extended scancodes, and the sequences of several bytes. A result is the word that the macros of
`driver/keyhelp.h` take apart.
-/

namespace LuckOS.Keyhelp

open KeyboardInput

/-! ## Constants -/

def lshiftKey : BitVec 16 := 0x8000
def rshiftKey : BitVec 16 := 0x4000
def lcontrolKey : BitVec 16 := 0x2000
def rcontrolKey : BitVec 16 := 0x1000
def laltKey : BitVec 16 := 0x0800
def raltKey : BitVec 16 := 0x0400
def capsLock : BitVec 16 := 0x0200
def numLock : BitVec 16 := 0x0100

def prscrUpScan : BitVec 16 := 0x0008
def prscrDownScan : BitVec 16 := 0x0004
def pauseScan : BitVec 16 := 0x0002
def extendedScan : BitVec 16 := 0x0001

def resultHasRaw : BitVec 32 := 0x08
def resultHasData : BitVec 32 := 0x04
def resultNumpad : BitVec 32 := 0x02
def resultMake : BitVec 32 := 0x01

def stateSmask : BitVec 16 := 0xFF00

/-! The codes of `enum kh_extended_e` above those of ASCII. -/

def kheUndefined : BitVec 8 := 0x80
def kheArrowUp : BitVec 8 := 0x81
def kheArrowLeft : BitVec 8 := 0x82
def kheArrowDown : BitVec 8 := 0x83
def kheArrowRight : BitVec 8 := 0x84
def kheLalt : BitVec 8 := 0x85
def kheRalt : BitVec 8 := 0x86
def kheLctl : BitVec 8 := 0x87
def kheRctl : BitVec 8 := 0x88
def kheLshift : BitVec 8 := 0x89
def kheRshift : BitVec 8 := 0x8A
def kheCapslock : BitVec 8 := 0x8B
def kheNumlock : BitVec 8 := 0x8C

/-- `KHE_F1` to `KHE_F12`. -/
def kheF (n : Nat) : BitVec 8 := 0x8C + BitVec.ofNat 8 n

def khePause : BitVec 8 := 0x99
def khePrintScreen : BitVec 8 := 0x9A

/-! ## The tables -/

/-- What a case of the two `switch` statements does. The cases for the left control key, num lock and the
prefix of the pause sequence also look at the static variables. -/
inductive Key where
  /-- `rcode = code = c`. -/
  | plain (c : BitVec 8)
  | numpad (c : BitVec 8)
  /-- `KHS_SHIFT`. -/
  | shift (s u : BitVec 8)
  /-- `KHS_SHIFTCTL`. -/
  | shiftCtl (cc s u : BitVec 8)
  /-- `KHS_SHIFTCAPSCTL`. -/
  | shiftCapsCtl (cc s u : BitVec 8)
  | modifier (bit : BitVec 16) (rcode : BitVec 8)
  | lock (bit : BitVec 16) (rcode : BitVec 8)
  | undefined
  deriving DecidableEq

/-- The code of an ASCII character. -/
def ascii (c : Char) : BitVec 8 := BitVec.ofNat 8 c.toNat

/-- The cases of `process_simple_scan`, from `0x00` on. -/
def simpleKeys : List Key := [
  -- 0x00
  .undefined, .plain 0x1B, .shift (ascii '!') (ascii '1'), .shiftCtl 0x00 (ascii '@') (ascii '2'),
  .shift (ascii '#') (ascii '3'), .shift (ascii '$') (ascii '4'), .shift (ascii '%') (ascii '5'),
  .shiftCtl 0x1E (ascii '^') (ascii '6'),
  -- 0x08
  .shift (ascii '&') (ascii '7'), .shift (ascii '*') (ascii '8'), .shift (ascii '(') (ascii '9'),
  .shift (ascii ')') (ascii '0'), .shiftCtl 0x1F (ascii '_') (ascii '-'),
  .shift (ascii '+') (ascii '='),
  .plain 0x08, .plain 0x09,
  -- 0x10
  .shiftCapsCtl 0x11 (ascii 'Q') (ascii 'q'), .shiftCapsCtl 0x17 (ascii 'W') (ascii 'w'),
  .shiftCapsCtl 0x05 (ascii 'E') (ascii 'e'), .shiftCapsCtl 0x12 (ascii 'R') (ascii 'r'),
  .shiftCapsCtl 0x14 (ascii 'T') (ascii 't'), .shiftCapsCtl 0x19 (ascii 'Y') (ascii 'y'),
  .shiftCapsCtl 0x15 (ascii 'U') (ascii 'u'), .shiftCapsCtl 0x09 (ascii 'I') (ascii 'i'),
  -- 0x18
  .shiftCapsCtl 0x0F (ascii 'O') (ascii 'o'), .shiftCapsCtl 0x10 (ascii 'P') (ascii 'p'),
  .shiftCapsCtl 0x1B (ascii '\x7b') (ascii '['), .shiftCapsCtl 0x1D (ascii '\x7d') (ascii ']'),
  .plain 0x0A, .modifier lcontrolKey kheLctl,
  .shiftCapsCtl 0x01 (ascii 'A') (ascii 'a'), .shiftCapsCtl 0x13 (ascii 'S') (ascii 's'),
  -- 0x20
  .shiftCapsCtl 0x04 (ascii 'D') (ascii 'd'), .shiftCapsCtl 0x06 (ascii 'F') (ascii 'f'),
  .shiftCapsCtl 0x07 (ascii 'G') (ascii 'g'), .shiftCapsCtl 0x08 (ascii 'H') (ascii 'h'),
  .shiftCapsCtl 0x0A (ascii 'J') (ascii 'j'), .shiftCapsCtl 0x0B (ascii 'K') (ascii 'k'),
  .shiftCapsCtl 0x0C (ascii 'L') (ascii 'l'), .shift (ascii ':') (ascii ';'),
  -- 0x28
  .shift 0x22 0x27, .shift (ascii '~') 0x60, .modifier lshiftKey kheLshift,
    .shiftCtl 0x1C (ascii '|') 0x5C,
  .shiftCapsCtl 0x1A (ascii 'Z') (ascii 'z'), .shiftCapsCtl 0x18 (ascii 'X') (ascii 'x'),
  .shiftCapsCtl 0x03 (ascii 'C') (ascii 'c'), .shiftCapsCtl 0x16 (ascii 'V') (ascii 'v'),
  -- 0x30
  .shiftCapsCtl 0x02 (ascii 'B') (ascii 'b'), .shiftCapsCtl 0x0E (ascii 'N') (ascii 'n'),
  .shiftCapsCtl 0x0D (ascii 'M') (ascii 'm'), .shift (ascii '<') (ascii ','),
  .shift (ascii '>') (ascii '.'),
  .shift (ascii '?') (ascii '/'), .modifier rshiftKey kheRshift, .numpad (ascii '*'),
  -- 0x38
  .modifier laltKey kheLalt, .plain (ascii ' '), .lock capsLock kheCapslock, .plain (kheF 1),
    .plain (kheF 2),
  .plain (kheF 3), .plain (kheF 4), .plain (kheF 5),
  -- 0x40
  .plain (kheF 6), .plain (kheF 7), .plain (kheF 8), .plain (kheF 9), .plain (kheF 10),
    .lock numLock kheNumlock,
  .undefined, .numpad (ascii '7'),
  -- 0x48
  .numpad (ascii '8'), .numpad (ascii '9'), .numpad (ascii '-'), .numpad (ascii '4'),
    .numpad (ascii '5'),
  .numpad (ascii '6'), .numpad (ascii '+'), .numpad (ascii '1'),
  -- 0x50
  .numpad (ascii '2'), .numpad (ascii '3'), .numpad (ascii '0'), .numpad (ascii '.'),
    .undefined, .undefined,
  .undefined, .plain (kheF 11),
  -- 0x58
  .plain (kheF 12)]

def simpleKey (keycode : BitVec 8) : Key := simpleKeys.getD keycode.toNat .undefined

/-- The cases of `process_extended_scan`, but for those of the print screen sequences. -/
def extendedKey (keycode : BitVec 8) : Key :=
  match keycode.toNat with
  | 0x1C => .numpad 0x0A
  | 0x1D => .modifier rcontrolKey kheRctl
  | 0x35 => .numpad (ascii '/')
  | 0x38 => .modifier raltKey kheRalt
  | 0x48 => .plain kheArrowUp
  | 0x4B => .plain kheArrowLeft
  | 0x4D => .plain kheArrowRight
  | 0x50 => .plain kheArrowDown
  | 0x53 => .plain 0x7F
  | _ => .undefined

/-! ## Processing -/

/-- The static variables. -/
structure KeyState where
  keyState : BitVec 16
  keyInternalState : BitVec 16
  keySequence : Nat
  deriving DecidableEq

/-- The static variables before the first scancode. -/
def KeyState.init : KeyState := ⟨0, 0, 0⟩

/-- Some of the bits are set. -/
def bitsSet (w bits : BitVec 16) : Bool := w &&& bits != 0

namespace KeyState

def shiftCore (s : KeyState) : Bool := bitsSet s.keyState (lshiftKey ||| rshiftKey)

def ctlCore (s : KeyState) : Bool := bitsSet s.keyState (lcontrolKey ||| rcontrolKey)

def caps (s : KeyState) : Bool := bitsSet s.keyState capsLock

def inPause (s : KeyState) : Bool := bitsSet s.keyInternalState pauseScan

def setInternal (s : KeyState) (bits : BitVec 16) : KeyState :=
  { s with keyInternalState := s.keyInternalState ||| bits }

def clearInternal (s : KeyState) (bits : BitVec 16) : KeyState :=
  { s with keyInternalState := s.keyInternalState &&& ~~~bits }

/-- A sequence that looked like a pause sequence is given up. -/
def leavePause (s : KeyState) : KeyState := { s.clearInternal pauseScan with keySequence := 0 }

def nextStage (s : KeyState) : KeyState := { s with keySequence := s.keySequence + 1 }

end KeyState

/-- What `process_simple_scan` and `process_extended_scan` return for `code`, `rcode` and the bits of `res`. -/
def partialResult (res : BitVec 32) (code rcode : BitVec 8) : BitVec 32 :=
  if rcode ≠ kheUndefined ∧ code ≠ kheUndefined then
    res ||| resultHasData <<< 16 ||| code.setWidth 32 ||| rcode.setWidth 32 <<< 8 ||| resultHasRaw <<< 16
  else res ||| rcode.setWidth 32 <<< 8 ||| resultHasRaw <<< 16

/-- A case of a `switch` that looks at no sequence. -/
def processKey (s : KeyState) (pressed : Bool) : Key → KeyState × BitVec 32
  | .plain c => (s, partialResult 0 c c)
  | .numpad c => (s, partialResult (resultNumpad <<< 16) c c)
  | .shift c u => (s, partialResult 0 (if s.shiftCore then c else u) u)
  | .shiftCtl cc c u => (s, partialResult 0 (if s.ctlCore then cc else if s.shiftCore then c else u) u)
  | .shiftCapsCtl cc c u =>
    (s, partialResult 0
      (if s.ctlCore then cc
        else if (s.shiftCore || s.caps) && !(s.shiftCore && s.caps) then c else u) u)
  | .modifier bit rcode =>
    ({ s with keyState := if pressed then s.keyState ||| bit else s.keyState &&& ~~~bit },
      partialResult 0 kheUndefined rcode)
  | .lock bit rcode =>
    ({ s with
      keyState :=
        if pressed then
          if bitsSet s.keyState bit then s.keyState &&& ~~~bit else s.keyState ||| bit
        else s.keyState },
      partialResult 0 kheUndefined rcode)
  | .undefined => (s, partialResult 0 kheUndefined kheUndefined)

/-- `process_simple_scan`. -/
def processSimpleScan (s : KeyState) (keycode : BitVec 8) (pressed : Bool) : KeyState × BitVec 32 :=
  if keycode = 0x1D then
    if s.inPause && s.keySequence == 0 then (s.nextStage, 0)
    else processKey s.leavePause pressed (simpleKey keycode)
  else if keycode = 0x45 then
    if s.inPause && s.keySequence == 1 then (s.nextStage, 0)
    else processKey s.leavePause pressed (simpleKey keycode)
  else if keycode = 0x61 then
    if !s.inPause then ({ s.setInternal pauseScan with keySequence := 0 }, 0)
    else if s.keySequence == 2 then (s.nextStage, 0)
    else processKey s.leavePause pressed .undefined
  else processKey s pressed (simpleKey keycode)

/-- `process_extended_scan`. -/
def processExtendedScan (s : KeyState) (keycode : BitVec 8) (pressed : Bool) : KeyState × BitVec 32 :=
  if keycode = 0x2A then
    if bitsSet s.keyInternalState prscrUpScan then
      ((s.clearInternal prscrUpScan).clearInternal extendedScan,
        partialResult 0 khePrintScreen khePrintScreen)
    else ((s.setInternal prscrDownScan).clearInternal extendedScan, 0)
  else if keycode = 0x37 then
    if bitsSet s.keyInternalState prscrDownScan then
      ((s.clearInternal prscrDownScan).clearInternal extendedScan,
        partialResult 0 khePrintScreen khePrintScreen)
    else ((s.setInternal prscrUpScan).clearInternal extendedScan, 0)
  else
    let (s, res) := processKey s pressed (extendedKey keycode)
    (s.clearInternal extendedScan, res)

/-- The end of `process_scancode`. -/
def complete (pressed : Bool) (r : KeyState × BitVec 32) : KeyState × BitVec 32 :=
  (r.1, (if pressed then r.2 ||| resultMake <<< 16
    else r.2) ||| (r.1.keyState &&& stateSmask).setWidth 32 <<< 16)

/-- The default case of the `switch` in `process_scancode`. -/
def deflt (s : KeyState) (keycode : BitVec 8) (pressed : Bool) : KeyState × BitVec 32 :=
  complete pressed (processSimpleScan (s.clearInternal (prscrUpScan ||| prscrDownScan)) keycode pressed)

def processScancode (s : KeyState) (keypress : Scancode) : KeyState × BitVec 32 :=
  let pressed := !keypress.msb
  let keycode := keypress &&& 0x7F
  if bitsSet s.keyInternalState extendedScan
    then complete pressed (processExtendedScan s keycode pressed)
  else if keypress = 0x9D then
    if s.inPause && s.keySequence == 3 then (s.nextStage, 0) else deflt s.leavePause keycode pressed
  else if keypress = 0xC5 then
    if s.inPause && s.keySequence == 4 then
      complete pressed (s.clearInternal pauseScan,
        khePause.setWidth 32 ||| khePause.setWidth 32 <<< 8 ||| resultHasData <<< 16)
    else deflt s.leavePause keycode pressed
  else if keypress = 0xE0 then (s.setInternal extendedScan, s.keyState.signExtend 32 <<< 16)
  else deflt s keycode pressed

end LuckOS.Keyhelp
