import LuckOS.KeyEvents

/-!
# Decoding what the keyboard sends

The bytes of a stroke are decoded to one result, and leave the static variables as they were but for
the flags. Also after any other bytes the decoder gets back into step.
-/

namespace LuckOS.Keyhelp

variable {s s' : KeyState} {key : Key} {pressed np : Bool} {code rcode : BitVec 8} {ks : BitVec 16}
  {f g : Flag} {on : Flag → Bool}

/-! ## Keys -/

theorem flagsOf_or (ks : BitVec 16) (g f : Flag) :
    flagsOf (ks ||| g.bit) f = if g.bit = f.bit then true else flagsOf ks f := by
  rw [flagsOf, flagsOf, bitsSet_bit, bitsSet_bit, BitVec.getLsbD_or, g.bit_eq,
    BitVec.getLsbD_twoPow, ← g.bit_eq]
  by_cases h : g = f
  · simp [h, f.index_lt]
  · have hindex : g.index ≠ f.index := fun h' => h (Flag.eq_of_index h')
    rw [if_neg (fun h' => h (Flag.bit_inj.mp h')), decide_eq_false hindex, Bool.and_false,
      Bool.or_false]

theorem flagsOf_andNot (ks : BitVec 16) (g f : Flag) :
    flagsOf (ks &&& ~~~g.bit) f = if g.bit = f.bit then false else flagsOf ks f := by
  rw [flagsOf, flagsOf, bitsSet_bit, bitsSet_bit, BitVec.getLsbD_and, BitVec.getLsbD_not, g.bit_eq,
    BitVec.getLsbD_twoPow,
    ← g.bit_eq, decide_eq_true f.index_lt, Bool.true_and]
  by_cases h : g = f
  · simp [h, f.index_lt]
  · have hindex : g.index ≠ f.index := fun h' => h (Flag.eq_of_index h')
    rw [if_neg (fun h' => h (Flag.bit_inj.mp h')), decide_eq_false hindex, Bool.and_false,
      Bool.not_false, Bool.and_true]

/-- The bits of `key_state` below those of the flags are never set. -/
def Clean (ks : BitVec 16) : Prop := ∀ i < 8, ks.getLsbD i = false

theorem clean_or (h : Clean ks) (g : Flag) : Clean (ks ||| g.bit) := by
  intro i hi
  have hg := g.le_index
  have hne : g.index ≠ i := by omega
  rw [BitVec.getLsbD_or, h i hi, g.bit_eq, BitVec.getLsbD_twoPow, decide_eq_false hne,
    Bool.and_false, Bool.or_false]

theorem clean_and (h : Clean ks) (w : BitVec 16) : Clean (ks &&& w) := by
  intro i hi
  rw [BitVec.getLsbD_and, h i hi, Bool.false_and]

theorem or_collect (n d h c r : BitVec 32) :
    n ||| d ||| c ||| r ||| h = c ||| r ||| (n ||| d ||| h) := by ac_rfl

theorem or_join (n m x y : BitVec 32) : x ||| n ||| m ||| y = x ||| (n ||| m) ||| y := by ac_rfl

theorem partialResult_eq (n : BitVec 32) (code rcode : BitVec 8) :
    partialResult (n <<< 16) code rcode =
      (if rcode ≠ kheUndefined ∧ code ≠ kheUndefined then code
        else 0).setWidth 32 ||| rcode.setWidth 32 <<< 8 |||
        (n ||| (if rcode ≠ kheUndefined ∧ code ≠ kheUndefined then resultHasData
          else 0) ||| resultHasRaw) <<< 16 := by
  rw [partialResult, BitVec.shiftLeft_or_distrib, BitVec.shiftLeft_or_distrib]
  by_cases hdata : rcode ≠ kheUndefined ∧ code ≠ kheUndefined
  · rw [if_pos hdata, if_pos hdata, if_pos hdata]
    exact or_collect ..
  · rw [if_neg hdata, if_neg hdata, if_neg hdata]
    refine Eq.trans ?_ (or_collect (n <<< 16) 0#32 (resultHasRaw <<< 16) 0#32 (rcode.setWidth 32 <<< 8))
    rw [BitVec.or_zero, BitVec.or_zero]

theorem complete_partialResult (s : KeyState) (pressed : Bool) (n : BitVec 32) (code rcode : BitVec 8) :
    complete pressed (s, partialResult (n <<< 16) code rcode) =
      (s, resultWord (if rcode ≠ kheUndefined ∧ code ≠ kheUndefined then code else 0) rcode
        (n ||| (if rcode ≠ kheUndefined ∧ code ≠ kheUndefined then resultHasData
          else 0) ||| resultHasRaw |||
          (if pressed then resultMake else 0)) s.keyState) := by
  rw [complete, partialResult_eq, resultWord,
    BitVec.shiftLeft_or_distrib _ (if pressed then resultMake else 0)]
  cases pressed with
  | true => exact congrArg (Prod.mk s) (or_join ..)
  | false =>
    rw [show (if false = true then resultMake else 0) <<< 16 = 0#32 from rfl, BitVec.or_zero]
    rfl

theorem complete_data (s : KeyState) (pressed np : Bool) (hcode : code ≠ kheUndefined)
    (hrcode : rcode ≠ kheUndefined) :
    ∃ w, complete pressed (s, partialResult ((if np then resultNumpad
      else 0) <<< 16) code rcode) = (s, w) ∧
      readReport w = ⟨code, rcode, true, true, np, pressed, flagsOf s.keyState⟩ := by
  have hcomplete := complete_partialResult s pressed (if np then resultNumpad else 0) code rcode
  have hdata : rcode ≠ kheUndefined ∧ code ≠ kheUndefined := ⟨hrcode, hcode⟩
  rw [if_pos hdata, if_pos hdata] at hcomplete
  exact ⟨_, hcomplete, readReport_resultWord code rcode true true np pressed s.keyState⟩

/-- Without a character there is only the name of the key. -/
theorem complete_raw (s : KeyState) (pressed : Bool) (rcode : BitVec 8) :
    ∃ w, complete pressed (s, partialResult 0 kheUndefined rcode) = (s, w) ∧
      readReport w = ⟨0, rcode, true, false, false, pressed, flagsOf s.keyState⟩ := by
  have hcomplete := complete_partialResult s pressed 0 kheUndefined rcode
  have hdata : ¬(rcode ≠ kheUndefined ∧ kheUndefined ≠ kheUndefined) := fun h => h.2 rfl
  rw [if_neg hdata, if_neg hdata] at hcomplete
  exact ⟨_, hcomplete, readReport_resultWord 0 rcode true false false pressed s.keyState⟩

theorem flagsOf_toggle (ks : BitVec 16) (g f : Flag) (pressed : Bool) :
    flagsOf (if pressed then if bitsSet ks g.bit then ks &&& ~~~g.bit else ks ||| g.bit else ks) f =
      if g.bit = f.bit ∧ pressed = true then !flagsOf ks f else flagsOf ks f := by
  cases pressed with
  | false => rw [if_neg Bool.false_ne_true, if_neg fun h => Bool.false_ne_true h.2]
  | true =>
    by_cases hbit : g.bit = f.bit
    · have hflag : flagsOf ks f = bitsSet ks g.bit := congrArg (bitsSet ks) hbit.symm
      rw [if_pos (c := g.bit = f.bit ∧ true = true) ⟨hbit, rfl⟩, if_pos rfl, hflag]
      cases hset : bitsSet ks g.bit with
      | true => exact (flagsOf_andNot ks g f).trans (if_pos hbit)
      | false => exact (flagsOf_or ks g f).trans (if_pos hbit)
    · rw [if_neg (c := g.bit = f.bit ∧ true = true) fun h => hbit h.1, if_pos rfl]
      cases bitsSet ks g.bit with
      | true => exact (flagsOf_andNot ks g f).trans (if_neg hbit)
      | false => exact (flagsOf_or ks g f).trans (if_neg hbit)

/-- A case of the `switch` reports its key, and changes nothing but the flags. -/
theorem processKey_wellFormed (h : key.WellFormed) (s : KeyState) (pressed : Bool) :
    ∃ ks w, complete pressed (processKey s pressed key) = ({ s with keyState := ks }, w) ∧
      readReport w = key.report pressed (flagsOf s.keyState) ∧
      flagsOf ks = (fun f => key.next pressed f (flagsOf s.keyState f)) ∧
      (Clean s.keyState → Clean ks) := by
  have hshift : s.shiftCore = (flagsOf s.keyState .lshift || flagsOf s.keyState .rshift) :=
    bitsSet_or ..
  have hctl : s.ctlCore = (flagsOf s.keyState .lcontrol || flagsOf s.keyState .rcontrol) :=
    bitsSet_or ..
  have hcaps : s.caps = flagsOf s.keyState .capsLock := rfl
  cases key with
  | plain c =>
    obtain ⟨w, hw, hreport⟩ := complete_data s pressed false h h
    exact ⟨s.keyState, w, hw, hreport, rfl, id⟩
  | numpad c =>
    obtain ⟨w, hw, hreport⟩ := complete_data s pressed true h h
    exact ⟨s.keyState, w, hw, hreport, rfl, id⟩
  | shift c u =>
    have hcode : (if s.shiftCore then c else u) ≠ kheUndefined := by
      split_ifs
      exacts [h.1, h.2]
    obtain ⟨w, hw, hreport⟩ := complete_data s pressed false hcode h.2
    exact ⟨s.keyState, w, hw, by rw [hreport, hshift]; rfl, rfl, id⟩
  | shiftCtl cc c u =>
    have hcode : (if s.ctlCore then cc else if s.shiftCore then c else u) ≠ kheUndefined := by
      split_ifs
      exacts [h.1, h.2.1, h.2.2]
    obtain ⟨w, hw, hreport⟩ := complete_data s pressed false hcode h.2.2
    exact ⟨s.keyState, w, hw, by rw [hreport, hshift, hctl]; rfl, rfl, id⟩
  | shiftCapsCtl cc c u =>
    have hxor : ((s.shiftCore || s.caps) && !(s.shiftCore && s.caps)) = (s.shiftCore != s.caps) := by
      cases s.shiftCore <;> cases s.caps <;> rfl
    have hcode : (if s.ctlCore then cc
        else if (s.shiftCore || s.caps) && !(s.shiftCore && s.caps) then c else u) ≠ kheUndefined := by
      split_ifs
      exacts [h.1, h.2.1, h.2.2]
    obtain ⟨w, hw, hreport⟩ := complete_data s pressed false hcode h.2.2
    exact ⟨s.keyState, w, hw, by rw [hreport, hxor, hshift, hctl, hcaps]; rfl, rfl, id⟩
  | modifier bit rcode =>
    obtain ⟨g, rfl⟩ := h
    let ks := if pressed then s.keyState ||| g.bit else s.keyState &&& ~~~g.bit
    have hflags : flagsOf ks = fun f =>
      (Key.modifier g.bit rcode).next pressed f (flagsOf s.keyState f) := by
      funext f
      cases pressed with
      | true => exact flagsOf_or ..
      | false => exact flagsOf_andNot ..
    obtain ⟨w, hw, hreport⟩ := complete_raw { s with keyState := ks } pressed rcode
    refine ⟨ks, w, hw,
      by rw [hreport]; exact congrArg (Report.mk 0 rcode true false false pressed) hflags, hflags, fun hclean => ?_⟩
    cases pressed with
    | true => exact clean_or hclean g
    | false => exact clean_and hclean _
  | lock bit rcode =>
    obtain ⟨g, rfl⟩ := h
    let ks := if pressed then if bitsSet s.keyState g.bit then s.keyState &&& ~~~g.bit
      else s.keyState ||| g.bit else s.keyState
    have hflags : flagsOf ks = fun f =>
      (Key.lock g.bit rcode).next pressed f (flagsOf s.keyState f) := by
      funext f
      exact flagsOf_toggle s.keyState g f pressed
    obtain ⟨w, hw, hreport⟩ := complete_raw { s with keyState := ks } pressed rcode
    refine ⟨ks, w, hw,
      by rw [hreport]; exact congrArg (Report.mk 0 rcode true false false pressed) hflags, hflags, fun hclean => ?_⟩
    dsimp only [ks]
    split_ifs
    exacts [clean_and hclean _, clean_or hclean g, hclean]
  | undefined =>
    obtain ⟨w, hw, hreport⟩ := complete_raw s pressed kheUndefined
    exact ⟨s.keyState, w, hw, hreport, rfl, id⟩

/-! ## The tables -/

def Flag.all : List Flag := [.lshift, .rshift, .lcontrol, .rcontrol, .lalt, .ralt, .capsLock, .numLock]

theorem Flag.mem_all (f : Flag) : f ∈ Flag.all := by cases f <;> decide

instance decidableFlagBit (bit : BitVec 16) : Decidable (∃ f : Flag, bit = f.bit) :=
  decidable_of_iff (∃ f ∈ Flag.all, bit = f.bit)
    ⟨fun ⟨f, _, hf⟩ => ⟨f, hf⟩, fun ⟨f, hf⟩ => ⟨f, f.mem_all, hf⟩⟩

instance decidableWellFormed : (key : Key) → Decidable key.WellFormed
  | .plain c => inferInstanceAs (Decidable (c ≠ kheUndefined))
  | .numpad c => inferInstanceAs (Decidable (c ≠ kheUndefined))
  | .shift s u => inferInstanceAs (Decidable (s ≠ kheUndefined ∧ u ≠ kheUndefined))
  | .shiftCtl cc s u => inferInstanceAs
    (Decidable (cc ≠ kheUndefined ∧ s ≠ kheUndefined ∧ u ≠ kheUndefined))
  | .shiftCapsCtl cc s u => inferInstanceAs
    (Decidable (cc ≠ kheUndefined ∧ s ≠ kheUndefined ∧ u ≠ kheUndefined))
  | .modifier bit _ => decidableFlagBit bit
  | .lock bit _ => decidableFlagBit bit
  | .undefined => inferInstanceAs (Decidable True)

theorem wellFormed_simpleKeys : ∀ key ∈ simpleKeys, key.WellFormed := by decide

theorem wellFormed_simpleKey (c : BitVec 8) : (simpleKey c).WellFormed := by
  rw [simpleKey, List.getD_eq_getElem?_getD]
  cases h : simpleKeys[c.toNat]? with
  | none => trivial
  | some key => exact wellFormed_simpleKeys key (List.mem_of_getElem? h)

theorem wellFormed_extendedKey (c : BitVec 8) : (extendedKey c).WellFormed := by
  rw [extendedKey]
  split
  case h_10 => trivial
  all_goals decide

/-! ## Bytes -/

theorem msb_keyByte {c : BitVec 8} (h : c.msb = false) (p : Bool) : (keyByte c p).msb = !p := by
  revert c
  cases p <;> decide

theorem keyByte_and {c : BitVec 8} (h : c.msb = false) (p : Bool) : keyByte c p &&& 0x7F = c := by
  revert c
  cases p <;> decide

theorem keyByte_eq {c : BitVec 8} (h : c.msb = false) (p : Bool) {b : BitVec 8} (hb : b.msb = true) :
    keyByte c p = b ↔ c = b &&& 0x7F ∧ p = false := by
  constructor
  · rintro rfl
    refine ⟨(keyByte_and h p).symm, ?_⟩
    rw [msb_keyByte h] at hb
    simpa using hb
  · rintro ⟨rfl, rfl⟩
    revert b
    decide

/-! ## Strokes -/

/-- A bit of `key_internal_state`. -/
def KeyState.internalBit (s : KeyState) (i : Nat) : Bool := s.keyInternalState.getLsbD i

theorem bitsSet_extended (s : KeyState) :
    bitsSet s.keyInternalState extendedScan = s.internalBit 0 := and_twoPow_ne _ 0

theorem inPause_eq (s : KeyState) : s.inPause = s.internalBit 1 := and_twoPow_ne _ 1

theorem bitsSet_down (s : KeyState) :
    bitsSet s.keyInternalState prscrDownScan = s.internalBit 2 := and_twoPow_ne _ 2

theorem bitsSet_up (s : KeyState) :
    bitsSet s.keyInternalState prscrUpScan = s.internalBit 3 := and_twoPow_ne _ 3

theorem internalBit_set (s : KeyState) (bits : BitVec 16) (i : Nat) :
    (s.setInternal bits).internalBit i = (s.internalBit i || bits.getLsbD i) :=
  BitVec.getLsbD_or

theorem internalBit_clear (s : KeyState) (bits : BitVec 16) (i : Nat) :
    (s.clearInternal bits).internalBit i = (s.internalBit i && !bits.getLsbD i) := by
  rw [KeyState.internalBit, KeyState.internalBit, KeyState.clearInternal, BitVec.getLsbD_and,
    BitVec.getLsbD_not]
  cases h : s.keyInternalState.getLsbD i with
  | false => rfl
  | true => rw [decide_eq_true (BitVec.lt_of_getLsbD h), Bool.true_and]

theorem getLsbD_extended (i : Nat) : extendedScan.getLsbD i = decide (0 = i) := by
  rw [show extendedScan = BitVec.twoPow 16 0 from rfl, BitVec.getLsbD_twoPow,
    decide_eq_true (by decide), Bool.true_and]

@[simp] theorem internalBit_setExtended (s : KeyState) (i : Nat) :
    (s.setInternal extendedScan).internalBit i = (s.internalBit i || decide (0 = i)) := by
  rw [internalBit_set, getLsbD_extended]

@[simp] theorem internalBit_clearExtended (s : KeyState) (i : Nat) :
    (s.clearInternal extendedScan).internalBit i = (s.internalBit i && !decide (0 = i)) := by
  rw [internalBit_clear, getLsbD_extended]

/-- No sequence but a pause sequence has been begun. -/
structure InStep (s : KeyState) : Prop where
  extended : s.internalBit 0 = false
  down : s.internalBit 2 = false
  up : s.internalBit 3 = false

theorem InStep.clear (h : InStep s) (bits : BitVec 16) : InStep (s.clearInternal bits) :=
  ⟨by simp [internalBit_clear, h.extended], by simp [internalBit_clear, h.down],
    by simp [internalBit_clear, h.up]⟩

/-- The variables differ at most in those of the pause sequence. -/
structure SameFlags (s s' : KeyState) : Prop where
  keyState : s'.keyState = s.keyState
  inStep : InStep s'
  pause : s.inPause = false → s'.inPause = false

theorem inPause_clear (h : s.inPause = false) (bits : BitVec 16) :
    (s.clearInternal bits).inPause = false := by
  rw [inPause_eq] at h
  rw [inPause_eq, internalBit_clear, h, Bool.false_and]

theorem inPause_leavePause (s : KeyState) : s.leavePause.inPause = false := by
  rw [inPause_eq]
  exact (internalBit_clear s pauseScan 1).trans (Bool.and_false _)

theorem SameFlags.refl (h : InStep s) : SameFlags s s := ⟨rfl, h, id⟩

theorem SameFlags.clear (h : SameFlags s s') (bits : BitVec 16) : SameFlags s (s'.clearInternal bits) :=
  ⟨h.keyState, h.inStep.clear bits, fun hp => inPause_clear (h.pause hp) bits⟩

theorem SameFlags.leavePause (h : SameFlags s s') : SameFlags s s'.leavePause := by
  obtain ⟨hkey, hstep, -⟩ := h.clear pauseScan
  exact ⟨hkey, ⟨hstep.extended, hstep.down, hstep.up⟩, fun _ => inPause_leavePause s'⟩

/-- A key whose code belongs to the pause sequence is decoded only outside of one. -/
def Free (s : KeyState) (k : SimpleCode) : Prop := s.inPause = true → k.code ≠ 0x1D ∧ k.code ≠ 0x45

theorem processSimpleScan_free (k : SimpleCode) (h : SameFlags s s') (hfree : Free s' k)
    (pressed : Bool) :
    ∃ t, SameFlags s t ∧ processSimpleScan s' k.code pressed =
    processKey t pressed (simpleKey k.code) := by
  have hpause : ∀ n, k.code = 0x1D ∨ k.code = 0x45 → (s'.inPause && s'.keySequence == n) = false := by
    intro n hk
    cases hp : s'.inPause with
    | false => rfl
    | true => exact absurd hk (not_or.mpr (hfree hp))
  by_cases h1 : k.code = 0x1D
  · exact ⟨s'.leavePause, h.leavePause,
      by rw [processSimpleScan, if_pos h1, hpause 0 (.inl h1), if_neg Bool.false_ne_true]⟩
  · by_cases h2 : k.code = 0x45
    · exact ⟨s'.leavePause, h.leavePause, by
        rw [processSimpleScan, if_neg h1, if_pos h2, hpause 1 (.inr h2), if_neg Bool.false_ne_true]⟩
    · exact ⟨s', h, by rw [processSimpleScan, if_neg h1, if_neg h2, if_neg k.ne_pause]⟩

theorem processScancode_simple (k : SimpleCode) (h : InStep s) (hfree : Free s k) (pressed : Bool) :
    ∃ t, SameFlags s t ∧
      processScancode s (keyByte k.code pressed) =
      complete pressed (processKey t pressed (simpleKey k.code)) := by
  have hdeflt : ∀ {s'}, SameFlags s s' → Free s' k →
      ∃ t, SameFlags s t ∧ deflt s' k.code pressed =
      complete pressed (processKey t pressed (simpleKey k.code)) := by
    intro s' hsame hfree
    have hfree' : Free (s'.clearInternal (prscrUpScan ||| prscrDownScan)) k := by
      intro hp
      refine hfree ?_
      by_contra hnot
      rw [inPause_clear (by simpa using hnot)] at hp
      cases hp
    obtain ⟨t, ht, heq⟩ := processSimpleScan_free k (hsame.clear _) hfree' pressed
    exact ⟨t, ht, congrArg (complete pressed) heq⟩
  have hleave : Free s.leavePause k := by
    intro hp
    rw [inPause_leavePause] at hp
    cases hp
  have hpause : ∀ n, k.code = 0x1D ∨ k.code = 0x45 → (s.inPause && s.keySequence == n) = false := by
    intro n hk
    cases hp : s.inPause with
    | false => rfl
    | true => exact absurd hk (not_or.mpr (hfree hp))
  rw [processScancode, msb_keyByte k.small, keyByte_and k.small, Bool.not_not,
    bitsSet_extended, h.extended,
    if_neg Bool.false_ne_true]
  by_cases h1 : keyByte k.code pressed = 0x9D
  · rw [if_pos h1, hpause 3 (.inl ((keyByte_eq k.small pressed rfl).mp h1).1),
      if_neg Bool.false_ne_true]
    exact hdeflt (SameFlags.refl h).leavePause hleave
  · rw [if_neg h1]
    by_cases h2 : keyByte k.code pressed = 0xC5
    · rw [if_pos h2, hpause 4 (.inr ((keyByte_eq k.small pressed rfl).mp h2).1),
        if_neg Bool.false_ne_true]
      exact hdeflt (SameFlags.refl h).leavePause hleave
    · have h3 : keyByte k.code pressed ≠ 0xE0 :=
        fun h3 => k.ne_extended ((keyByte_eq k.small pressed rfl).mp h3).1
      rw [if_neg h2, if_neg h3]
      exact hdeflt (SameFlags.refl h) hfree

/-- An intermediate result carries no key. -/
def Intermediate (w : BitVec 32) : Prop :=
  (readReport w).hasRaw = false ∧ (readReport w).hasData = false

theorem finalReports_cons (w : BitVec 32) (ws : List (BitVec 32)) :
    finalReports (w :: ws) =
      if (readReport w).hasRaw || (readReport w).hasData then readReport w :: finalReports ws
      else finalReports ws := by
  rw [finalReports, List.map_cons, List.filter_cons]
  rfl

theorem finalReports_intermediate {w : BitVec 32} (h : Intermediate w) (ws : List (BitVec 32)) :
    finalReports (w :: ws) = finalReports ws := by
  rw [finalReports_cons, h.1, h.2]
  rfl

theorem complete_zero (s : KeyState) (pressed : Bool) :
    ∃ w, complete pressed (s, 0) = (s, w) ∧ Intermediate w := by
  have hreport := readReport_resultWord 0 0 false false false pressed s.keyState
  refine ⟨_, rfl, ?_⟩
  have hword : (if pressed then (0 : BitVec 32) ||| resultMake <<< 16 else 0) =
      (0 : BitVec 8).setWidth 32 ||| (0 : BitVec 8).setWidth 32 <<< 8 |||
        (0 ||| 0 ||| 0 ||| if pressed then resultMake else 0) <<< 16 := by
    cases pressed <;> rfl
  dsimp only
  rw [hword]
  exact ⟨congrArg Report.hasRaw hreport, congrArg Report.hasData hreport⟩

theorem intermediate_zero : Intermediate 0 := ⟨rfl, rfl⟩

/-- The result for the prefix `0xE0`. -/
theorem intermediate_of_clean (h : Clean ks) : Intermediate (ks.signExtend 32 <<< 16) := by
  have hbit : ∀ i < 8, (ks.signExtend 32 <<< 16).getLsbD (16 + i) = false := by
    intro i hi
    rw [BitVec.getLsbD_shiftLeft, BitVec.getLsbD_signExtend, Nat.add_sub_cancel_left,
      if_pos (by omega), h i hi,
      Bool.and_false, Bool.and_false]
  exact ⟨(upperBit _ (by decide)).trans (hbit 3 (by decide)),
    (upperBit _ (by decide)).trans (hbit 2 (by decide))⟩

theorem processScancode_prefix (h : s.internalBit 0 = false) :
    processScancode s 0xE0 = (s.setInternal extendedScan, s.keyState.signExtend 32 <<< 16) := by
  rw [processScancode, bitsSet_extended, h, if_neg Bool.false_ne_true, if_neg (by decide),
    if_neg (by decide), if_pos rfl]

theorem processScancode_extended (h : s.internalBit 0 = true) (b : Scancode) :
    processScancode s b = complete (!b.msb) (processExtendedScan s (b &&& 0x7F) (!b.msb)) := by
  rw [processScancode, bitsSet_extended, h, if_pos rfl]

/-- The state after a sequence that has cleared its bits again. -/
theorem SameFlags.of_bits (h : InStep s) (hkey : s'.keyState = s.keyState)
    (hbits : ∀ i < 4, s'.internalBit i = s.internalBit i) : SameFlags s s' where
  keyState := hkey
  inStep := ⟨(hbits 0 (by decide)).trans h.extended, (hbits 2 (by decide)).trans h.down,
    (hbits 3 (by decide)).trans h.up⟩
  pause := fun hp => by rwa [inPause_eq, hbits 1 (by decide), ← inPause_eq]

/-- What the bytes of a stroke lead to. -/
structure Decodes (s : KeyState) (e : Stroke) : Prop where
  inStep : InStep (processAll s e.bytes).1
  clean : Clean (processAll s e.bytes).1.keyState
  flags : flagsOf (processAll s e.bytes).1.keyState = e.next (flagsOf s.keyState)
  reports : finalReports (processAll s e.bytes).2 = [e.report (flagsOf s.keyState)]
  pause : s.inPause = false → (processAll s e.bytes).1.inPause = false

theorem finalReports_key {w : BitVec 32} {pressed : Bool} (h : readReport w = key.report pressed on) :
    finalReports [w] = [key.report pressed on] := by
  rw [finalReports_cons, h]
  rfl

theorem decodes_simple (k : SimpleCode) (h : InStep s) (hclean : Clean s.keyState)
    (hfree : Free s k) (pressed : Bool) :
    Decodes s (.simple k pressed) := by
  obtain ⟨t, hsame, hprocess⟩ := processScancode_simple k h hfree pressed
  obtain ⟨ks, w, hkey, hreport, hflags, hks⟩ :=
    processKey_wellFormed (wellFormed_simpleKey k.code) t pressed
  rw [hkey] at hprocess
  rw [hsame.keyState] at hreport hflags hks
  constructor
  all_goals simp only [Stroke.bytes, processAll, hprocess]
  · exact ⟨hsame.inStep.extended, hsame.inStep.down, hsame.inStep.up⟩
  · exact hks hclean
  · exact hflags
  · exact finalReports_key hreport
  · exact hsame.pause

theorem decodes_extended (k : ExtendedCode) (h : InStep s) (hclean : Clean s.keyState)
    (pressed : Bool) :
    Decodes s (.extended k pressed) := by
  obtain ⟨ks, w, hkey, hreport, hflags, hks⟩ :=
    processKey_wellFormed (wellFormed_extendedKey k.code) (s.setInternal extendedScan) pressed
  have hsecond : processScancode (s.setInternal extendedScan) (keyByte k.code pressed) =
      ({ (s.setInternal extendedScan).clearInternal extendedScan with keyState := ks }, w) := by
    rw [processScancode_extended (by simp), msb_keyByte k.small, keyByte_and k.small, Bool.not_not,
      processExtendedScan,
      if_neg k.ne_first, if_neg k.ne_second]
    exact congrArg (fun r : KeyState × BitVec 32 => (r.1.clearInternal extendedScan, r.2)) hkey
  have hsame : SameFlags s ((s.setInternal extendedScan).clearInternal extendedScan) := by
    refine SameFlags.of_bits h rfl fun i hi => ?_
    cases i with
    | zero => simp [h.extended]
    | succ i => simp
  constructor
  all_goals simp only [Stroke.bytes, processAll, processScancode_prefix h.extended, hsecond]
  · exact ⟨hsame.inStep.extended, hsame.inStep.down, hsame.inStep.up⟩
  · exact hks hclean
  · exact hflags
  · rw [finalReports_intermediate (intermediate_of_clean hclean)]
    exact finalReports_key hreport
  · exact hsame.pause

/-- The result of the print screen key behind the second prefix. -/
theorem complete_printScreen (s : KeyState) (pressed : Bool) :
    ∃ w, complete pressed (s, partialResult 0 khePrintScreen khePrintScreen) = (s, w) ∧
      readReport w = (Stroke.printScreen pressed).report (flagsOf s.keyState) :=
  complete_data s pressed false (by decide) (by decide)

/-- Both halves of a print screen sequence: the first one sets the bits `bits`, and the second one clears them. -/
theorem printScreen_halves (b₁ b₂ : Scancode) {bits : BitVec 16} (h : InStep s)
    (hclean : Clean s.keyState)
    (hfirst : ∀ {t p}, t.internalBit 2 = false → t.internalBit 3 = false →
      processExtendedScan t (b₁ &&& 0x7F) p = ((t.setInternal bits).clearInternal extendedScan, 0))
    (hsecond : ∀ {t p}, (∀ i, bits.getLsbD i = true → t.internalBit i = true) →
      processExtendedScan t (b₂ &&& 0x7F) p =
        ((t.clearInternal bits).clearInternal extendedScan,
          partialResult 0 khePrintScreen khePrintScreen))
    (hbits : ∀ i < 2, bits.getLsbD i = false) :
    SameFlags s (processAll s [0xE0, b₁, 0xE0, b₂]).1 ∧
    finalReports (processAll s [0xE0, b₁, 0xE0, b₂]).2 =
      [(Stroke.printScreen (!b₂.msb)).report (flagsOf s.keyState)] := by
  let s₁ := s.setInternal extendedScan
  let s₂ := (s₁.setInternal bits).clearInternal extendedScan
  let s₃ := s₂.setInternal extendedScan
  let s₄ := (s₃.clearInternal bits).clearInternal extendedScan
  obtain ⟨w₁, hw₁, hmid⟩ := complete_zero s₂ (!b₁.msb)
  obtain ⟨w₂, hw₂, hreport⟩ := complete_printScreen s₄ (!b₂.msb)
  have hstep₁ : processScancode s₁ b₁ = (s₂, w₁) := by
    rw [processScancode_extended (by simp [s₁]), hfirst (by simp [s₁, h.down])
      (by simp [s₁, h.up])]
    exact hw₁
  have hprefix₂ : processScancode s₂ 0xE0 = (s₃, s.keyState.signExtend 32 <<< 16) :=
    processScancode_prefix (by simp [s₂])
  have hstep₂ : processScancode s₃ b₂ = (s₄, w₂) := by
    rw [processScancode_extended (by simp [s₃]), hsecond]
    · exact hw₂
    · intro i hi
      have hne : i ≠ 0 := by
        rintro rfl
        rw [hbits 0 (by decide)] at hi
        cases hi
      simp [s₃, s₂, internalBit_set, hi, Ne.symm hne]
  have hall : processAll s [0xE0, b₁, 0xE0, b₂] =
      (s₄, [s.keyState.signExtend 32 <<< 16, w₁, s.keyState.signExtend 32 <<< 16, w₂]) := by
    simp only [processAll, processScancode_prefix h.extended]
    rw [hstep₁]
    simp only [hprefix₂, hstep₂]
  rw [hall]
  constructor
  · refine SameFlags.of_bits h rfl fun i hi => ?_
    have hbit : s₄.internalBit i = ((s.internalBit i || decide (0 =
      i)) && !bits.getLsbD i && !decide (0 = i)) := by
      simp only [s₄, s₃, s₂, s₁, internalBit_clear, internalBit_set, getLsbD_extended]
      cases s.internalBit i <;> cases bits.getLsbD i <;> cases decide (0 = i) <;> rfl
    rw [hbit]
    obtain rfl | rfl | rfl | rfl : i = 0 ∨ i = 1 ∨ i = 2 ∨ i = 3 := by omega
    · rw [h.extended]
      exact Bool.and_false _
    · rw [hbits 1 (by decide)]
      simp
    · rw [h.down]
      rfl
    · rw [h.up]
      rfl
  · rw [finalReports_intermediate (intermediate_of_clean hclean), finalReports_intermediate hmid,
      finalReports_intermediate (intermediate_of_clean hclean), finalReports_cons, hreport]
    rfl

theorem decodes_printScreen (h : InStep s) (hclean : Clean s.keyState) (pressed : Bool) :
    Decodes s (.printScreen pressed) := by
  have hdown : ∀ i < 2, prscrDownScan.getLsbD i = false := by decide
  have hup : ∀ i < 2, prscrUpScan.getLsbD i = false := by decide
  cases pressed with
  | true =>
    obtain ⟨hsame, hreports⟩ := printScreen_halves 0x2A 0x37 h hclean
      (fun {t p} _ hup => by
        rw [processExtendedScan, if_pos (by decide), bitsSet_up, hup, if_neg Bool.false_ne_true])
      (fun {t p} hbits => by
        rw [processExtendedScan, if_neg (by decide), if_pos (by decide), bitsSet_down, hbits 2 rfl,
          if_pos rfl])
      hdown
    exact ⟨hsame.inStep, hsame.keyState ▸ hclean, congrArg flagsOf hsame.keyState, hreports,
      hsame.pause⟩
  | false =>
    obtain ⟨hsame, hreports⟩ := printScreen_halves 0xB7 0xAA h hclean
      (fun {t p} hdown _ => by
        rw [processExtendedScan, if_neg (by decide), if_pos (by decide), bitsSet_down, hdown,
          if_neg Bool.false_ne_true])
      (fun {t p} hbits => by
        rw [processExtendedScan, if_pos (by decide), bitsSet_up, hbits 3 rfl, if_pos rfl])
      hup
    exact ⟨hsame.inStep, hsame.keyState ▸ hclean, congrArg flagsOf hsame.keyState, hreports,
      hsame.pause⟩

/-- The stage `n` of a pause sequence. -/
structure Paused (s : KeyState) (n : Nat) (t : KeyState) : Prop where
  keyState : t.keyState = s.keyState
  sequence : t.keySequence = n
  inStep : InStep t
  pause : t.inPause = true

variable {t : KeyState} {n : Nat}

theorem inPause_clearPrscr (s : KeyState) :
    (s.clearInternal (prscrUpScan ||| prscrDownScan)).inPause = s.inPause := by
  rw [inPause_eq, inPause_eq, internalBit_clear]
  exact Bool.and_true _

theorem Paused.clear (h : Paused s n t) :
    Paused s n (t.clearInternal (prscrUpScan ||| prscrDownScan)) :=
  ⟨h.keyState, h.sequence, h.inStep.clear _, (inPause_clearPrscr t).trans h.pause⟩

theorem Paused.nextStage (h : Paused s n t) : Paused s (n + 1) t.nextStage :=
  ⟨h.keyState, congrArg (· + 1) h.sequence, ⟨h.inStep.extended, h.inStep.down, h.inStep.up⟩, h.pause⟩

/-- A byte that is not special to `process_scancode` itself. -/
theorem processScancode_deflt (h : InStep s) {b : Scancode} (h₁ : b ≠ 0x9D) (h₂ : b ≠ 0xC5)
    (h₃ : b ≠ 0xE0) :
    processScancode s b = deflt s (b &&& 0x7F) (!b.msb) := by
  rw [processScancode, bitsSet_extended, h.extended, if_neg Bool.false_ne_true, if_neg h₁,
    if_neg h₂, if_neg h₃]

/-- A stage whose byte is recognised by `process_simple_scan`. -/
theorem Paused.step (h : Paused s n t) {b : Scancode} (h₁ : b ≠ 0x9D) (h₂ : b ≠ 0xC5) (h₃ : b ≠ 0xE0)
    (hscan : ∀ {u p}, u.inPause = true → u.keySequence = n →
      processSimpleScan u (b &&& 0x7F) p = (u.nextStage, 0)) :
    Paused s (n + 1) (processScancode t b).1 ∧ Intermediate (processScancode t b).2 := by
  obtain ⟨w, hw, hmid⟩ := complete_zero
    (t.clearInternal (prscrUpScan ||| prscrDownScan)).nextStage (!b.msb)
  rw [processScancode_deflt h.inStep h₁ h₂ h₃, deflt, hscan h.clear.pause h.clear.sequence, hw]
  exact ⟨h.clear.nextStage, hmid⟩

theorem paused_prefix (h : InStep s) (hpause : s.inPause = false) :
    Paused s 0 (processScancode s 0xE1).1 ∧ Intermediate (processScancode s 0xE1).2 := by
  have hclear := h.clear (prscrUpScan ||| prscrDownScan)
  let t : KeyState := { (s.clearInternal (prscrUpScan ||| prscrDownScan)).setInternal pauseScan with
    keySequence := 0 }
  obtain ⟨w, hw, hmid⟩ := complete_zero t (!BitVec.msb (0xE1 : Scancode))
  have hscan : processSimpleScan (s.clearInternal (prscrUpScan ||| prscrDownScan)) (0xE1 &&& 0x7F)
    (!BitVec.msb (0xE1 : Scancode)) =
      (t, 0) := by
    rw [processSimpleScan, if_neg (by decide), if_neg (by decide), if_pos (by decide),
      inPause_clearPrscr, hpause]
    rfl
  rw [processScancode_deflt h (by decide) (by decide) (by decide), deflt, hscan, hw]
  have hbit : ∀ i, t.internalBit i =
    ((s.clearInternal (prscrUpScan ||| prscrDownScan)).internalBit i || pauseScan.getLsbD i) :=
    fun i => internalBit_set _ _ i
  refine ⟨⟨rfl, rfl, ⟨?_, ?_, ?_⟩, ?_⟩, hmid⟩
  · rw [hbit, hclear.extended]
    rfl
  · rw [hbit, hclear.down]
    rfl
  · rw [hbit, hclear.up]
    rfl
  · rw [inPause_eq, hbit]
    exact Bool.or_true _

/-- The pause key, of which only the last byte has a result. -/
theorem decodes_pause (h : InStep s) (hclean : Clean s.keyState) (hpause : s.inPause = false) :
    Decodes s .pause := by
  obtain ⟨h₀, hmid₀⟩ := paused_prefix h hpause
  obtain ⟨h₁, hmid₁⟩ := h₀.step (b := 0x1D) (by decide) (by decide) (by decide) fun {u p} hp hn => by
    rw [processSimpleScan, if_pos (by decide), hp, hn]
    rfl
  obtain ⟨h₂, hmid₂⟩ := h₁.step (b := 0x45) (by decide) (by decide) (by decide) fun {u p} hp hn => by
    rw [processSimpleScan, if_neg (by decide), if_pos (by decide), hp, hn]
    rfl
  obtain ⟨h₃, hmid₃⟩ := h₂.step (b := 0xE1) (by decide) (by decide) (by decide) fun {u p} hp hn => by
    rw [processSimpleScan, if_neg (by decide), if_neg (by decide), if_pos (by decide), hp, hn]
    rfl
  generalize ht₀ : processScancode s 0xE1 = r₀ at *
  generalize ht₁ : processScancode r₀.1 0x1D = r₁ at *
  generalize ht₂ : processScancode r₁.1 0x45 = r₂ at *
  generalize ht₃ : processScancode r₂.1 0xE1 = r₃ at *
  have ht₄ : processScancode r₃.1 0x9D = (r₃.1.nextStage, 0) := by
    rw [processScancode, bitsSet_extended, h₃.inStep.extended, if_neg Bool.false_ne_true,
      if_pos rfl, h₃.pause, h₃.sequence]
    rfl
  have h₄ := h₃.nextStage
  have ht₅ : processScancode r₃.1.nextStage 0xC5 = (r₃.1.nextStage.clearInternal pauseScan,
      resultWord khePause khePause (0 ||| resultHasData ||| 0 ||| 0) s.keyState) := by
    rw [processScancode, bitsSet_extended, h₄.inStep.extended, if_neg Bool.false_ne_true,
      if_neg (by decide), if_pos rfl,
      h₄.pause, h₄.sequence]
    rw [← h₃.keyState]
    rfl
  have hall : processAll s Stroke.pause.bytes = (r₃.1.nextStage.clearInternal pauseScan,
      [r₀.2, r₁.2, r₂.2, r₃.2, 0, resultWord khePause khePause
        (0 ||| resultHasData ||| 0 ||| 0) s.keyState]) := by
    simp only [Stroke.bytes, processAll, ht₀, ht₁, ht₂, ht₃, ht₄, ht₅]
  constructor
  all_goals rw [hall]
  · exact h₄.inStep.clear pauseScan
  · exact (show (r₃.1.nextStage.clearInternal pauseScan).keyState =
      s.keyState from h₃.keyState) ▸ hclean
  · exact congrArg flagsOf h₃.keyState
  · have hreport : readReport (resultWord khePause khePause
      (0 ||| resultHasData ||| 0 ||| 0) s.keyState) =
        Stroke.pause.report (flagsOf s.keyState) :=
      readReport_resultWord khePause khePause false true false false s.keyState
    rw [finalReports_intermediate hmid₀, finalReports_intermediate hmid₁,
      finalReports_intermediate hmid₂,
      finalReports_intermediate hmid₃, finalReports_intermediate intermediate_zero,
      finalReports_cons, hreport]
    rfl
  · intro _
    rw [inPause_eq, internalBit_clear]
    exact Bool.and_false _

/-- The strokes that do not depend on whether a pause sequence has been begun. -/
def Stroke.Ordinary : Stroke → Prop
  | .simple k _ => k.code ≠ 0x1D ∧ k.code ≠ 0x45
  | .extended _ _ | .printScreen _ => True
  | .pause => False

theorem decodes (e : Stroke) (h : InStep s) (hclean : Clean s.keyState)
    (hfree : s.inPause = false ∨ e.Ordinary) :
    Decodes s e := by
  cases e with
  | simple k pressed =>
    refine decodes_simple k h hclean (fun hp => ?_) pressed
    refine hfree.resolve_left fun hnot => ?_
    rw [hnot] at hp
    cases hp
  | extended k pressed => exact decodes_extended k h hclean pressed
  | printScreen pressed => exact decodes_printScreen h hclean pressed
  | pause => exact decodes_pause h hclean (hfree.resolve_right id)

/-! ## Runs -/

variable {es : List Stroke}

theorem processAll_append (s : KeyState) (bs cs : List Scancode) :
    processAll s (bs ++ cs) =
      ((processAll (processAll s bs).1 cs).1,
        (processAll s bs).2 ++ (processAll (processAll s bs).1 cs).2) := by
  induction bs generalizing s with
  | nil => rfl
  | cons b bs ih => simp only [List.cons_append, processAll, ih]

theorem finalReports_append (ws vs : List (BitVec 32)) :
    finalReports (ws ++ vs) = finalReports ws ++ finalReports vs := by
  rw [finalReports, List.map_append, List.filter_append]
  rfl

/-- The bytes of a list of strokes. -/
def bytesOf (es : List Stroke) : List Scancode := es.flatMap Stroke.bytes

theorem processAll_strokes (h : InStep s) (hclean : Clean s.keyState)
    (hfree : s.inPause = false ∨ ∀ e ∈ es, e.Ordinary) :
    InStep (processAll s (bytesOf es)).1 ∧ Clean (processAll s (bytesOf es)).1.keyState ∧
    (s.inPause = false → (processAll s (bytesOf es)).1.inPause = false) ∧
    flagsOf (processAll s (bytesOf es)).1.keyState =
    es.foldl (fun on e => e.next on) (flagsOf s.keyState) ∧
    finalReports (processAll s (bytesOf es)).2 = reports (flagsOf s.keyState) es := by
  induction es generalizing s with
  | nil => exact ⟨h, hclean, id, rfl, rfl⟩
  | cons e es ih =>
    have hfirst := decodes e h hclean (hfree.imp_right fun hall => hall e List.mem_cons_self)
    have hrest := ih hfirst.inStep hfirst.clean (hfree.imp hfirst.pause fun hall e' he' =>
      hall e' (List.mem_cons_of_mem e he'))
    obtain ⟨h₁, h₂, h₃, h₄, h₅⟩ := hrest
    rw [hfirst.flags] at h₄ h₅
    rw [show bytesOf (e :: es) = e.bytes ++ bytesOf es from List.flatMap_cons, processAll_append]
    refine ⟨h₁, h₂, fun hp => h₃ (hfirst.pause hp), h₄, ?_⟩
    dsimp only
    rw [finalReports_append, hfirst.reports, h₅]
    rfl

theorem inStep_init : InStep .init := ⟨by decide, by decide, by decide⟩

theorem clean_zero : Clean 0 := fun _ _ => BitVec.getLsbD_zero

theorem flagsOf_zero : flagsOf 0 = fun _ => false := by
  funext f
  cases f <;> rfl

/-- Whatever keys are pressed and released, in any order: the results that are no intermediate ones are those of the strokes,
each under the modifiers that are held and the locks that are on. -/
theorem strokes_decoded (es : List Stroke) :
    finalReports (processAll .init (bytesOf es)).2 = reports (fun _ => false) es := by
  rw [← flagsOf_zero]
  exact (processAll_strokes inStep_init clean_zero (.inl (by decide))).2.2.2.2

/-! ## Getting back into step -/

theorem clean_processKey (h : key.WellFormed) (hclean : Clean s.keyState) (pressed : Bool) :
    Clean (processKey s pressed key).1.keyState := by
  obtain ⟨ks, w, hkey, -, -, hks⟩ := processKey_wellFormed h s pressed
  rw [show (processKey s pressed key).1 = { s with keyState := ks } from congrArg Prod.fst hkey]
  exact hks hclean

theorem clean_processSimpleScan (hclean : Clean s.keyState) (c : BitVec 8) (pressed : Bool) :
    Clean (processSimpleScan s c pressed).1.keyState := by
  have hleave : Clean s.leavePause.keyState := hclean
  have hundefined : Key.undefined.WellFormed := trivial
  rw [processSimpleScan]
  split_ifs
  · exact hclean
  · exact clean_processKey (wellFormed_simpleKey c) hleave pressed
  · exact hclean
  · exact clean_processKey (wellFormed_simpleKey c) hleave pressed
  · exact hclean
  · exact hclean
  · exact clean_processKey hundefined hleave pressed
  · exact clean_processKey (wellFormed_simpleKey c) hclean pressed

theorem clean_processExtendedScan (hclean : Clean s.keyState) (c : BitVec 8) (pressed : Bool) :
    Clean (processExtendedScan s c pressed).1.keyState := by
  rw [processExtendedScan]
  split_ifs
  · exact hclean
  · exact hclean
  · exact hclean
  · exact hclean
  · exact clean_processKey (wellFormed_extendedKey c) hclean pressed

theorem clean_deflt (hclean : Clean s.keyState) (c : BitVec 8) (pressed : Bool) :
    Clean (deflt s c pressed).1.keyState := by
  have hcleared : Clean (s.clearInternal (prscrUpScan ||| prscrDownScan)).keyState := hclean
  exact clean_processSimpleScan hcleared c pressed

theorem clean_processScancode (hclean : Clean s.keyState) (b : Scancode) :
    Clean (processScancode s b).1.keyState := by
  have hleave : Clean s.leavePause.keyState := hclean
  rw [processScancode]
  split_ifs
  · exact clean_processExtendedScan hclean _ _
  · exact hclean
  · exact clean_deflt hleave _ _
  · exact hclean
  · exact clean_deflt hleave _ _
  · exact hclean
  · exact clean_deflt hclean _ _

/-- A byte behind a prefix ends the extended scancode, whatever it is. -/
theorem extended_ended (h : s.internalBit 0 = true) (b : Scancode) :
    (processScancode s b).1.internalBit 0 = false := by
  rw [processScancode_extended h]
  change (processExtendedScan s (b &&& 0x7F) (!b.msb)).1.internalBit 0 = false
  rw [processExtendedScan]
  split_ifs <;> simp

/-- The byte of an ordinary key ends also the print screen sequences. -/
theorem inStep_of_ordinary (h : s.internalBit 0 = false) (k : SimpleCode)
    (hk : k.code ≠ 0x1D ∧ k.code ≠ 0x45) (pressed : Bool) :
    InStep (processScancode s (keyByte k.code pressed)).1 := by
  have h₁ : keyByte k.code pressed ≠ 0x9D := fun h => hk.1 ((keyByte_eq k.small pressed rfl).mp h).1
  have h₂ : keyByte k.code pressed ≠ 0xC5 := fun h => hk.2 ((keyByte_eq k.small pressed rfl).mp h).1
  have h₃ : keyByte k.code pressed ≠ 0xE0 :=
    fun h => k.ne_extended ((keyByte_eq k.small pressed rfl).mp h).1
  rw [processScancode, bitsSet_extended, h, if_neg Bool.false_ne_true, if_neg h₁, if_neg h₂,
    if_neg h₃, deflt,
    keyByte_and k.small, processSimpleScan, if_neg hk.1, if_neg hk.2, if_neg k.ne_pause]
  obtain ⟨ks, w, hkey, -⟩ := processKey_wellFormed (wellFormed_simpleKey k.code)
    (s.clearInternal (prscrUpScan ||| prscrDownScan)) (!(keyByte k.code pressed).msb)
  rw [hkey]
  have hbit : ∀ i, (s.clearInternal (prscrUpScan ||| prscrDownScan)).internalBit i =
      (s.internalBit i && !(prscrUpScan ||| prscrDownScan).getLsbD i) := internalBit_clear s _
  refine ⟨?_, ?_, ?_⟩
  · exact (hbit 0).trans (by rw [h, Bool.false_and])
  · exact (hbit 2).trans (Bool.and_false _)
  · exact (hbit 3).trans (Bool.and_false _)

/-- Also after any bytes at all, the bytes of two ordinary keys bring the decoder back into step: from then on the ordinary
strokes are decoded. -/
theorem strokes_decoded_after (bs : List Scancode) (k₁ k₂ : SimpleCode) (pressed₁ pressed₂ : Bool)
    (h₁ : k₁.code ≠ 0x1D ∧ k₁.code ≠ 0x45) (h₂ : k₂.code ≠ 0x1D ∧ k₂.code ≠ 0x45) {es : List Stroke}
    (hes : ∀ e ∈ es, e.Ordinary) :
    let s := (processAll .init (bs ++ [keyByte k₁.code pressed₁, keyByte k₂.code pressed₂])).1
    finalReports (processAll s (bytesOf es)).2 = reports (flagsOf s.keyState) es := by
  have hclean : ∀ {bs s}, Clean s.keyState → Clean (processAll s bs).1.keyState := by
    intro bs
    induction bs with
    | nil => exact id
    | cons b bs ih => exact fun h => ih (clean_processScancode h b)
  intro s
  have hs : InStep s := by
    dsimp only [s]
    rw [processAll_append]
    generalize (processAll .init bs).1 = t
    have hfirst : (processScancode t (keyByte k₁.code pressed₁)).1.internalBit 0 = false := by
      cases hbit : t.internalBit 0 with
      | true => exact extended_ended hbit _
      | false => exact (inStep_of_ordinary hbit k₁ h₁ pressed₁).extended
    exact inStep_of_ordinary hfirst k₂ h₂ pressed₂
  exact (processAll_strokes hs (hclean clean_zero) (.inr hes)).2.2.2.2

/-- The key of the letter a. -/
def keyA : SimpleCode := ⟨0x1E, by decide, by decide, by decide⟩

theorem strokes_decoded_after_prefixes :
    let s := (processAll .init ([0xE1, 0xE0, 0x2A, 0xE0] ++ [keyByte keyA.code true,
      keyByte keyA.code false])).1
    finalReports (processAll s (bytesOf [.simple keyA true])).2 =
      reports (flagsOf s.keyState) [.simple keyA true] :=
  strokes_decoded_after [0xE1, 0xE0, 0x2A,
    0xE0] keyA keyA true false (by decide) (by decide) fun e he => by
    obtain rfl := List.mem_singleton.mp he
    exact ⟨by decide, by decide⟩

end LuckOS.Keyhelp
