import LuckOS.Keyhelp

/-!
# Keys and their scancodes

What the bytes of a keyboard mean: a stroke presses or releases one key, and the keyboard sends one
to six bytes for it. Of the decoder only the modifier keys that are held and the locks that are on
remain of the strokes before.
-/

namespace LuckOS.Keyhelp

open KeyboardInput

/-! ## The macros of `keyhelp.h` -/

def hasRaw (k : BitVec 32) : Bool := (k.sshiftRight 16 &&& 0x08) != 0

def isNumpad (k : BitVec 32) : Bool := (k.sshiftRight 16 &&& 0x02) != 0

def getRaw (k : BitVec 32) : BitVec 32 := k.sshiftRight 8 &&& 0xFF

/-- The keys and the locks of the state field. -/
inductive Flag where
  | lshift | rshift | lcontrol | rcontrol | lalt | ralt | capsLock | numLock
  deriving DecidableEq

def Flag.bit : Flag → BitVec 16
  | lshift => lshiftKey
  | rshift => rshiftKey
  | lcontrol => lcontrolKey
  | rcontrol => rcontrolKey
  | lalt => laltKey
  | ralt => raltKey
  | capsLock => Keyhelp.capsLock
  | numLock => Keyhelp.numLock

/-- A bit of `KH_STATE`. -/
def stateBit (k : BitVec 32) (f : Flag) : Bool := (k.sshiftRight 16 &&& f.bit.setWidth 32) != 0

/-- What the macros read from a result. -/
@[ext] structure Report where
  char : BitVec 8
  raw : BitVec 8
  hasRaw : Bool
  hasData : Bool
  numpad : Bool
  make : Bool
  flags : Flag → Bool

def readReport (k : BitVec 32) : Report where
  char := (k &&& 0xFF).setWidth 8
  raw := (getRaw k).setWidth 8
  hasRaw := Keyhelp.hasRaw k
  hasData := KeyboardInput.hasData k
  numpad := isNumpad k
  make := isMake k
  flags := stateBit k

/-! ## What a stroke means -/

namespace Key

/-- The character, for the flags that are on. -/
def char (on : Flag → Bool) : Key → Option (BitVec 8)
  | plain c => some c
  | numpad c => some c
  | shift s u => some (if on .lshift || on .rshift then s else u)
  | shiftCtl cc s u =>
    some (if on .lcontrol || on .rcontrol then cc else if on .lshift || on .rshift then s else u)
  | shiftCapsCtl cc s u =>
    some (if on .lcontrol || on .rcontrol then cc else if (on .lshift || on .rshift) != on .capsLock
      then s else u)
  | modifier _ _ | lock _ _ | undefined => none

/-- The name of the key. -/
def raw : Key → BitVec 8
  | plain c => c
  | numpad c => c
  | shift _ u => u
  | shiftCtl _ _ u => u
  | shiftCapsCtl _ _ u => u
  | modifier _ rcode => rcode
  | lock _ rcode => rcode
  | undefined => kheUndefined

def onNumpad : Key → Bool
  | numpad _ => true
  | _ => false

/-- A modifier is on while its key is held, and a lock changes with every press. -/
def next (key : Key) (pressed : Bool) (f : Flag) (on : Bool) : Bool :=
  match key with
  | modifier bit _ => if bit = f.bit then pressed else on
  | lock bit _ => if bit = f.bit ∧ pressed = true then !on else on
  | _ => on

def report (key : Key) (pressed : Bool) (on : Flag → Bool) : Report where
  char := (key.char on).getD 0
  raw := key.raw
  hasRaw := true
  hasData := (key.char on).isSome
  numpad := key.onNumpad
  make := pressed
  flags := fun f => key.next pressed f (on f)

/-- The bits are those of flags, and no code is `KHE_UNDEFINED`. -/
def WellFormed : Key → Prop
  | plain c => c ≠ kheUndefined
  | numpad c => c ≠ kheUndefined
  | shift s u => s ≠ kheUndefined ∧ u ≠ kheUndefined
  | shiftCtl cc s u => cc ≠ kheUndefined ∧ s ≠ kheUndefined ∧ u ≠ kheUndefined
  | shiftCapsCtl cc s u => cc ≠ kheUndefined ∧ s ≠ kheUndefined ∧ u ≠ kheUndefined
  | modifier bit _ => ∃ f : Flag, bit = f.bit
  | lock bit _ => ∃ f : Flag, bit = f.bit
  | undefined => True

end Key

/-- A scancode without prefix. The codes `0x60` and `0x61` are those of the prefixes. -/
structure SimpleCode where
  code : BitVec 8
  small : code.msb = false
  ne_extended : code ≠ 0x60
  ne_pause : code ≠ 0x61

/-- A scancode behind the prefix `0xE0`. The codes `0x2A` and `0x37` belong to the print screen key. -/
structure ExtendedCode where
  code : BitVec 8
  small : code.msb = false
  ne_first : code ≠ 0x2A
  ne_second : code ≠ 0x37

inductive Stroke where
  | simple (k : SimpleCode) (pressed : Bool)
  | extended (k : ExtendedCode) (pressed : Bool)
  | printScreen (pressed : Bool)
  /-- The pause key is sent when it is pressed, and not when it is released. -/
  | pause

/-- The byte for a key that is pressed or released. -/
def keyByte (code : BitVec 8) (pressed : Bool) : Scancode := if pressed then code else code ||| 0x80

namespace Stroke

/-- The bytes that an idealised keyboard sends: they do not depend on the modifiers. The variants of print screen with
Shift, Ctrl or Alt and of pause with Ctrl, and fake shifts, are no strokes. -/
def bytes : Stroke → List Scancode
  | simple k pressed => [keyByte k.code pressed]
  | extended k pressed => [0xE0, keyByte k.code pressed]
  | printScreen true => [0xE0, 0x2A, 0xE0, 0x37]
  | printScreen false => [0xE0, 0xB7, 0xE0, 0xAA]
  | pause => [0xE1, 0x1D, 0x45, 0xE1, 0x9D, 0xC5]

/-- The flags after a stroke. -/
def next : Stroke → (Flag → Bool) → Flag → Bool
  | simple k pressed, on => fun f => (simpleKey k.code).next pressed f (on f)
  | extended k pressed, on => fun f => (extendedKey k.code).next pressed f (on f)
  | printScreen _, on => on
  | pause, on => on

/-- The result that is no intermediate one. That of the pause key has neither `KH_RESULT_HASRAW` nor `KH_RESULT_MAKE`. -/
def report : Stroke → (Flag → Bool) → Report
  | simple k pressed, on => (simpleKey k.code).report pressed on
  | extended k pressed, on => (extendedKey k.code).report pressed on
  | printScreen pressed, on =>
    { char := khePrintScreen, raw := khePrintScreen, hasRaw := true, hasData := true, numpad := false, make := pressed
      flags := on }
  | pause, on =>
    { char := khePause, raw := khePause, hasRaw := false, hasData := true, numpad := false, make := false, flags := on }

end Stroke

/-- The results of strokes, one after the other. -/
def reports : (Flag → Bool) → List Stroke → List Report
  | _, [] => []
  | on, e :: es => e.report on :: reports (e.next on) es

/-- Process the bytes one after the other. -/
def processAll : KeyState → List Scancode → KeyState × List (BitVec 32)
  | s, [] => (s, [])
  | s, b :: bs =>
    let r := processScancode s b
    let rest := processAll r.1 bs
    (rest.1, r.2 :: rest.2)

/-- The results that are no intermediate ones. -/
def finalReports (ks : List (BitVec 32)) : List Report :=
  (ks.map readReport).filter fun r => r.hasRaw || r.hasData

/-! ## Bits -/

def Flag.index : Flag → Nat
  | lshift => 15
  | rshift => 14
  | lcontrol => 13
  | rcontrol => 12
  | lalt => 11
  | ralt => 10
  | capsLock => 9
  | numLock => 8

theorem Flag.bit_eq (f : Flag) : f.bit = BitVec.twoPow 16 f.index := by cases f <;> rfl

theorem Flag.setWidth_bit (f : Flag) :
    f.bit.setWidth 32 = BitVec.twoPow 32 f.index := by cases f <;> rfl

theorem Flag.index_lt (f : Flag) : f.index < 16 := by cases f <;> decide

theorem Flag.le_index (f : Flag) : 8 ≤ f.index := by cases f <;> decide

theorem Flag.eq_of_index {f g : Flag} (h : f.index = g.index) : f = g := by
  cases f <;> cases g <;> first | rfl | cases h

theorem Flag.bit_inj {f g : Flag} : f.bit = g.bit ↔ f = g := by
  refine ⟨fun h => ?_, congrArg Flag.bit⟩
  cases f <;> cases g <;> first | rfl | exact absurd h (by decide)

variable {w ks : BitVec 16} {k : BitVec 32} {i n : Nat} {c r : BitVec 8} {f g : Flag}

theorem and_twoPow_ne (x : BitVec n) (i : Nat) : (x &&& BitVec.twoPow n i != 0) = x.getLsbD i := by
  rw [BitVec.and_twoPow]
  cases h : x.getLsbD i with
  | false => simp
  | true =>
    have hi := BitVec.lt_of_getLsbD h
    rw [if_pos rfl, bne_iff_ne]
    intro hzero
    have hbit := congrArg (fun x => BitVec.getLsbD x i) hzero
    simp [hi] at hbit

theorem bitsSet_bit (w : BitVec 16) (f : Flag) : bitsSet w f.bit = w.getLsbD f.index := by
  rw [bitsSet, f.bit_eq, and_twoPow_ne]

theorem bitsSet_or (w a b : BitVec 16) : bitsSet w (a ||| b) = (bitsSet w a || bitsSet w b) := by
  rw [bitsSet, bitsSet, bitsSet, BitVec.and_or_distrib_left, Bool.eq_iff_iff]
  simp only [bne_iff_ne, ne_eq, Bool.or_eq_true, BitVec.ofNat_eq_ofNat,
    BitVec.or_eq_zero_iff, not_and_or]

/-- A bit of the upper half of a result. -/
theorem upperBit (k : BitVec 32) (hi : i < 16) :
    (k.sshiftRight 16 &&& BitVec.twoPow 32 i != 0) = k.getLsbD (16 + i) := by
  rw [and_twoPow_ne, BitVec.getLsbD_sshiftRight, if_pos (by omega), decide_eq_false (by omega),
    Bool.not_false,
    Bool.true_and]

/-- The fields of a result. -/
def resultWord (char raw : BitVec 8) (rmods : BitVec 32) (ks : BitVec 16) : BitVec 32 :=
  char.setWidth 32 ||| raw.setWidth 32 <<< 8 ||| rmods <<< 16 ||| (ks &&& stateSmask).setWidth 32 <<< 16

theorem getElem_mask (hi : i < 32) : (0xFF : BitVec 32)[i] = decide (i < 8) := by
  revert hi i
  decide

theorem char_resultWord (c r : BitVec 8) (k : BitVec 32) (ks : BitVec 16) :
    resultWord c r k ks &&& 0xFF = c.setWidth 32 := by
  ext i hi
  rw [BitVec.getElem_and, getElem_mask, BitVec.getElem_setWidth]
  by_cases h : i < 8
  · have h' : i < 16 := by omega
    simp only [resultWord, BitVec.getElem_or, BitVec.getElem_shiftLeft, h, h', decide_true,
      Bool.not_true, Bool.false_and,
      Bool.or_false, BitVec.getElem_setWidth, Bool.and_true]
  · rw [decide_eq_false h, Bool.and_false, BitVec.getLsbD_of_ge c i (by omega)]

theorem raw_resultWord (c r : BitVec 8) (k : BitVec 32) (ks : BitVec 16) :
    getRaw (resultWord c r k ks) = r.setWidth 32 := by
  ext i hi
  rw [getRaw, BitVec.getElem_and, getElem_mask, BitVec.getElem_setWidth]
  by_cases h : i < 8
  · have h' : 8 + i < 16 := by omega
    have h'' : 8 + i < 32 := by omega
    simp [resultWord, h, h', h'', BitVec.getElem_sshiftRight]
  · rw [decide_eq_false h, Bool.and_false, BitVec.getLsbD_of_ge r i (by omega)]

theorem upper_resultWord (c r : BitVec 8) (k : BitVec 32) (ks : BitVec 16) (hi : i < 16) :
    (resultWord c r k ks).getLsbD (16 + i) = (k.getLsbD i || ks.getLsbD i && stateSmask.getLsbD i) := by
  have h8 : ¬16 + i < 8 := by omega
  have h16 : ¬16 + i < 16 := by omega
  have h32 : 16 + i < 32 := by omega
  have hi' : i < 32 := by omega
  simp [resultWord, hi, hi', h8, h16, h32, BitVec.getLsbD_of_ge c (16 + i) (by omega),
    show 16 + i - 8 = 8 + i by omega]

/-- The flags in `key_state`. -/
def flagsOf (ks : BitVec 16) : Flag → Bool := fun f => bitsSet ks f.bit

/-- Four of the bits say what the result is, and the flags are those of `key_state`. -/
theorem readReport_resultWord (c r : BitVec 8) (hasRaw hasData numpad make : Bool) (ks : BitVec 16) :
    readReport (resultWord c r ((if numpad then resultNumpad else 0) ||| (if hasData
      then resultHasData else 0) |||
      (if hasRaw then resultHasRaw else 0) ||| (if make then resultMake else 0)) ks) =
    ⟨c, r, hasRaw, hasData, numpad, make, flagsOf ks⟩ := by
  have hlow : ∀ i < 8, stateSmask.getLsbD i = false := by decide
  have hhigh : ∀ f : Flag, stateSmask.getLsbD f.index = true := by
    intro f
    cases f <;> rfl
  generalize hrmods : ((if numpad then resultNumpad else 0) ||| (if hasData
    then resultHasData else 0) |||
      (if hasRaw then resultHasRaw else 0) ||| (if make then resultMake else 0) : BitVec 32) = rmods
  have hbits : rmods.getLsbD 3 = hasRaw ∧ rmods.getLsbD 2 = hasData ∧ rmods.getLsbD 1 = numpad ∧
    rmods.getLsbD 0 = make := by
    subst hrmods
    cases hasRaw <;> cases hasData <;> cases numpad <;> cases make <;> decide
  have hnone : ∀ f : Flag, rmods.getLsbD f.index = false := by
    subst hrmods
    intro f
    cases hasRaw <;> cases hasData <;> cases numpad <;> cases make <;> cases f <;> decide
  have hbit : ∀ i < 8, ((resultWord c r rmods ks).sshiftRight 16 &&& BitVec.twoPow 32 i != 0) =
    rmods.getLsbD i := by
    intro i hi
    rw [upperBit _ (by omega), upper_resultWord c r rmods ks (by omega), hlow i hi, Bool.and_false,
      Bool.or_false]
  ext1
  · rw [readReport, char_resultWord, BitVec.setWidth_setWidth_of_le _ (by decide), BitVec.setWidth_eq]
  · rw [readReport, raw_resultWord, BitVec.setWidth_setWidth_of_le _ (by decide), BitVec.setWidth_eq]
  · exact (hbit 3 (by decide)).trans hbits.1
  · exact (hbit 2 (by decide)).trans hbits.2.1
  · exact (hbit 1 (by decide)).trans hbits.2.2.1
  · exact (hbit 0 (by decide)).trans hbits.2.2.2
  · funext f
    change ((resultWord c r rmods ks).sshiftRight 16 &&& f.bit.setWidth 32 != 0) = flagsOf ks f
    rw [f.setWidth_bit, upperBit _ f.index_lt, upper_resultWord c r rmods ks f.index_lt, hnone f,
      hhigh f, Bool.and_true, Bool.false_or, flagsOf, bitsSet_bit]

end LuckOS.Keyhelp
