import LuckOS.KeyDecoding

/-!
# The characters that are typed

The readers of the keyboard get the characters of the keys that are pressed, in their order, however
interrupts, readers and switches are interleaved.
-/

namespace LuckOS.Keyhelp

open KeyboardInput Runs

/-- The character of a result that `read_keyboard_char_impl` returns. -/
def character (w : BitVec 32) : Option Int := if hasData w && isMake w then some (getChar w) else none

def characters (ws : List (BitVec 32)) : List Int := ws.filterMap character

/-- The character that is typed by a stroke. -/
def Report.typed (r : Report) : Option Int := if r.hasData && r.make then some r.char.toNat else none

/-- The characters that are typed by strokes. -/
def typed (es : List Stroke) : List Int := (reports (fun _ => false) es).filterMap Report.typed

/-- The character that a step of a reader gives it. -/
def readResult (s : KeyboardInput KeyState) : KeyboardInput.Action → Option Int
  | .run _ =>
    if s.Reads then
      (readKeyboardCharImpl processScancode s).bind fun r => if r.1 = -1 then none else some r.1
    else none
  | .call _ | .timer | .keyboard _ => none

/-- The characters which the readers get in a run from `s`. -/
def returned : KeyboardInput KeyState → List KeyboardInput.Action → List Int
  | _, [] => []
  | s, a :: as =>
    (readResult s a).toList ++
      ((KeyboardInput.step processScancode s a).map fun t => returned t as).getD []

variable {s t : KeyboardInput KeyState} {c : Int} {rounds : Nat} {cs : List Int} {es : List Stroke}
  {ws : List (BitVec 32)}

theorem typed_readReport (w : BitVec 32) : (readReport w).typed = character w := by
  have hsmall : (w &&& 0xFF).toNat ≤ 255 := by
    rw [BitVec.toNat_and]
    exact Nat.and_le_right
  have hchar : (((w &&& 0xFF).setWidth 8).toNat : Int) = getChar w := by
    rw [getChar, BitVec.toNat_setWidth, Nat.mod_eq_of_lt (by omega),
      BitVec.toInt_eq_toNat_of_lt (by omega)]
  rw [character, ← hchar]
  rfl

theorem characters_eq (ws : List (BitVec 32)) :
    characters ws = (finalReports ws).filterMap Report.typed := by
  induction ws with
  | nil => rfl
  | cons w ws ih =>
    rw [finalReports_cons]
    by_cases hfinal : ((readReport w).hasRaw || (readReport w).hasData) = true
    · rw [if_pos hfinal, List.filterMap_cons, typed_readReport, ← ih]
      rfl
    · rw [if_neg hfinal, ← ih]
      have hdata : hasData w = false := by
        cases hd : hasData w with
        | false => rfl
        | true => exact absurd (by rw [show (readReport w).hasData = true from hd, Bool.or_true]) hfinal
      have hnone : character w = none := by rw [character, hdata]; rfl
      exact List.filterMap_cons_none hnone

/-- The static variables and the characters are those of the scancodes that have been processed. -/
structure Tracks (s : KeyboardInput KeyState) (cs : List Int) : Prop where
  keys : s.keys = (processAll .init s.processed).1
  characters : cs = characters (processAll .init s.processed).2

theorem characters_append (ws vs : List (BitVec 32)) :
    characters (ws ++ vs) = characters ws ++ characters vs :=
  List.filterMap_append

/-- A scancode that is processed. -/
theorem Tracks.processNext (h : Tracks s cs) :
    Tracks (processNext processScancode s).2 (cs ++
      (character (processNext processScancode s).1).toList) := by
  obtain ⟨hkeys, hchars⟩ := h
  let code := (s.queue.dequeue keyboardBufSize).1
  have hall : processAll .init (s.processed ++ [code]) =
      ((processScancode s.keys code).1,
        (processAll .init s.processed).2 ++ [(processScancode s.keys code).2]) := by
    rw [processAll_append, ← hkeys]
    rfl
  refine ⟨(congrArg Prod.fst hall).symm, ?_⟩
  change _ = Keyhelp.characters (processAll .init (s.processed ++ [code])).2
  rw [hall, characters_append, ← hchars]
  rfl

theorem Tracks.readLoop (h : Tracks s cs) (hread : readLoop processScancode rounds s = some (c, t)) :
    Tracks t (cs ++ if c = -1 then [] else [c]) := by
  induction rounds generalizing s with
  | zero => cases hread
  | succ rounds ih =>
    rw [KeyboardInput.readLoop] at hread
    by_cases hempty : s.queue.size = 0
    · rw [if_pos hempty] at hread
      obtain ⟨rfl, rfl⟩ := Prod.mk.inj (Option.some.inj hread)
      rw [if_pos rfl, List.append_nil]
      exact h
    rw [if_neg hempty] at hread
    dsimp only at hread
    split_ifs at hread with hchar
    · obtain ⟨rfl, rfl⟩ := Prod.mk.inj (Option.some.inj hread)
      have hnext := h.processNext
      rw [character, if_pos hchar] at hnext
      rw [if_neg (getChar_ne _)]
      exact hnext
    · have hnext := h.processNext
      rw [character, if_neg hchar, Option.toList_none, List.append_nil] at hnext
      exact ih hnext hread

theorem Tracks.step {a : KeyboardInput.Action} (h : Tracks s cs)
    (hstep : KeyboardInput.step processScancode s a = some t) :
    Tracks t (cs ++ (readResult s a).toList) := by
  have hsame : ∀ {t : KeyboardInput KeyState}, t.keys = s.keys → t.processed = s.processed →
    Tracks t cs :=
    fun hkeys hprocessed => ⟨by rw [hkeys, hprocessed, h.keys], by rw [hprocessed, h.characters]⟩
  cases a with
  | call f =>
    obtain ⟨k, -, rfl⟩ := Option.map_eq_some_iff.mp hstep
    exact (List.append_nil cs).symm ▸ hsame rfl rfl
  | run answer =>
    rw [KeyboardInput.step] at hstep
    rw [readResult]
    split_ifs at hstep with hreads
    · obtain ⟨r, hread, hr⟩ := Option.bind_eq_some_iff.mp hstep
      obtain ⟨k, -, rfl⟩ := Option.map_eq_some_iff.mp hr
      have hloop := h.readLoop hread
      rw [if_pos hreads, hread, Option.bind_some]
      have hlist : (if r.1 = -1 then none else some r.1 : Option Int).toList = if r.1 = -1 then []
        else [r.1] := by
        split_ifs <;> rfl
      rw [hlist]
      exact ⟨hloop.keys, hloop.characters⟩
    · obtain ⟨k, -, rfl⟩ := Option.map_eq_some_iff.mp hstep
      rw [if_neg hreads]
      exact (List.append_nil cs).symm ▸ hsame rfl rfl
  | timer =>
    obtain ⟨k, -, rfl⟩ := Option.map_eq_some_iff.mp hstep
    exact (List.append_nil cs).symm ▸ hsame rfl rfl
  | keyboard scancode =>
    obtain ⟨k, -, rfl⟩ := Option.map_eq_some_iff.mp hstep
    exact (List.append_nil cs).symm ▸ hsame rfl rfl

theorem Tracks.run {as : List KeyboardInput.Action}
    (hrun : Run (Steps (KeyboardInput.step processScancode)) s as t)
    (h : Tracks s cs) : Tracks t (cs ++ returned s as) := by
  induction hrun generalizing cs with
  | nil s => exact (List.append_nil cs).symm ▸ h
  | cons head tail ih =>
    have hrest := ih (h.step head)
    rw [returned, show KeyboardInput.step processScancode _ _ = _ from head, Option.map_some,
      Option.getD_some,
      ← List.append_assoc]
    exact hrest

/-- In every run, however interrupts, readers and switches are interleaved: if the scancodes that found room in the buffer are
those of strokes, then the readers get the characters that these strokes type, in their order and none twice,
and have got all of them when the buffer is empty. -/
theorem typed_characters_returned {as : List KeyboardInput.Action}
    (hrun : Run (Steps (KeyboardInput.step processScancode)) (start .init) as s)
    (hes : s.accepted = bytesOf es) :
    returned (start .init) as <+: typed es ∧
    (s.queue.contents keyboardBufSize = [] → returned (start .init) as = typed es) := by
  have htracks : Tracks s ([] ++ returned (start .init) as) := Tracks.run hrun ⟨rfl, rfl⟩
  have horder := (inv_of_run hrun).delivered.inOrder
  have hall : characters (processAll .init (bytesOf es)).2 = typed es := by
    rw [characters_eq, (processAll_strokes inStep_init clean_zero (.inl (by decide))).2.2.2.2]
    change (reports (flagsOf 0) es).filterMap Report.typed = typed es
    rw [flagsOf_zero]
    rfl
  rw [← hes, horder, processAll_append] at hall
  dsimp only at hall
  rw [characters_append, ← htracks.characters, List.nil_append] at hall
  refine ⟨⟨_, hall⟩, fun hempty => ?_⟩
  rw [hempty] at hall
  exact (List.append_nil _).symm.trans hall

/-- A reader waits, the letter a is pressed, and the reader is woken and runs again. -/
def typeA : List KeyboardInput.Action :=
  samplePress ++ List.replicate 4 (.run true) ++ [.timer] ++ List.replicate 4 (.run true)

theorem typed_characters_returned_a :
    ∃ s, Run (Steps (KeyboardInput.step processScancode)) (start .init) typeA s ∧
    returned (start .init) typeA = typed [.simple keyA true] := by
  have htest : (execute (KeyboardInput.step processScancode) (start .init) typeA).any (fun s =>
      decide (s.accepted = bytesOf [.simple keyA true] ∧
        s.queue.contents keyboardBufSize = [])) = true := by
    decide +kernel
  rw [Option.any_eq_true] at htest
  obtain ⟨s, hexec, htest⟩ := htest
  obtain ⟨haccepted, hempty⟩ := of_decide_eq_true htest
  have hrun : Run (Steps (KeyboardInput.step processScancode)) (start .init) typeA s :=
    run_of_execute hexec
  exact ⟨s, hrun, (typed_characters_returned hrun haccepted).2 hempty⟩

end LuckOS.Keyhelp
