import LuckOS.Shell

/-!
# The arrays of `shell.c`

`run_program` finds the words of a line, with one element of `args` for each word behind the first. The
length of a line, the number of its words and the sizes of the arrays are not compared anywhere: the
stores of a run stay inside of the arrays, and no child runs a program that was not set, exactly if no key
makes a line longer than 511 characters and every line that is run has from one to 33 words.
-/

namespace LuckOS

namespace Shell

/-- The words of a line whose first word begins with `w`. -/
def wordsFrom (w text : List UInt8) : List (List UInt8) :=
  ((text.splitOnP separates).modifyHead (w ++ ·)).filter (!·.isEmpty)

/-- The words of a line. -/
def words (text : List UInt8) : List (List UInt8) := (text.splitOnP separates).filter (!·.isEmpty)

/-- An array starts with the first 127 characters of a word and a zero. -/
def Holds (program : Int → Option UInt8) (word : List UInt8) : Prop :=
  (∀ k : Nat, k < min word.length 127 → program k = word[k]?) ∧
    program (min word.length 127 : Nat) = some 0

/-- From an index on, an array has the first 127 characters of a word and a zero. -/
def HoldsAt (buffer : Int → Option UInt8) (offset : Int) (word : List UInt8) : Prop :=
  (∀ k : Nat, k < min word.length 127 → buffer (offset + k) = word[k]?) ∧
    buffer (offset + (min word.length 127 : Nat)) = some 0

/-- All stores were inside of the arrays, and the programs that were run are words of the line. -/
structure Safe (s : Shell) : Prop where
  cmdBuffer : ∀ i ∈ s.stores, 0 ≤ i ∧ i < 512
  args : ∀ i ∈ s.argsStores, 0 ≤ i ∧ i < 32
  argBuffer : ∀ i ∈ s.argBufferStores, 0 ≤ i ∧ i < 32 * 128
  execs : ∀ call ∈ s.execs, ∃ word ∈ words call.line, Holds call.program word

/-- The character makes the shell run a program. -/
def RunsProgram (s : Shell) (c : BitVec 32) : Prop :=
  c = 10 ∧ s.cmdEndIndex ≠ 0 ∧ s.comparesTo "exit" ≠ some 0 ∧ s.comparesTo "clear" ≠ some 0

/-- There is room for a character of the line, and a line that is run has from one to 33 words; it may have
none if `fork` fails. -/
def Fits (s : Shell) (input : Input) : Prop :=
  (32 ≤ input.c.toInt ∧ input.c.toInt < 128 → s.cmdEndIndex < 511) ∧
    (s.RunsProgram input.c → (words s.line).length ≤ 33 ∧ (input.forked = true → words s.line ≠ []))

variable {s t : Shell} {e : LineEditor UInt8} {input : Input} {w text : List UInt8} {c : UInt8}

/-! ## The words of a line -/

theorem wordsFrom_nil_left (text : List UInt8) : wordsFrom [] text = words text := by
  have hid : (fun l : List UInt8 => [] ++ l) = id := rfl
  rw [wordsFrom, hid, List.modifyHead_id]
  rfl

theorem wordsFrom_nil (w : List UInt8) : wordsFrom w [] = [w].filter (!·.isEmpty) := by
  rw [wordsFrom, List.splitOnP_nil, List.modifyHead_cons, List.append_nil]

theorem wordsFrom_separator (hc : separates c = true) (w text : List UInt8) :
    wordsFrom w (c :: text) = [w].filter (!·.isEmpty) ++ words text := by
  rw [wordsFrom, List.splitOnP_cons_eq_if_modifyHead, if_pos hc, List.modifyHead_cons,
    List.append_nil, ← List.singleton_append,
    List.filter_append]
  rfl

theorem wordsFrom_char (hc : ¬ separates c = true) (w text : List UInt8) :
    wordsFrom w (c :: text) = wordsFrom (w ++ [c]) text := by
  have hcompose : ((w ++ ·) ∘ List.cons c) = (w ++ [c] ++ ·) := by
    funext l
    rw [Function.comp, List.append_assoc, List.singleton_append]
  rw [wordsFrom, List.splitOnP_cons_eq_if_modifyHead, if_neg hc, List.modifyHead_modifyHead, hcompose]
  rfl

/-! ## The loop of `run_program` -/

theorem memcpy_eq (dst : Int → Option UInt8) (offset : Int) (cmdBuffer : Int → UInt8)
    (first : Int) (n : Nat) :
    memcpy dst offset cmdBuffer first n = fun j =>
      if offset ≤ j ∧ j < offset + n then some (cmdBuffer (first + (j - offset))) else dst j := by
  induction n with
  | zero =>
    funext j
    exact (if_neg (by omega)).symm
  | succ n ih =>
    have hlast : memcpy dst offset cmdBuffer first (n + 1) =
        Function.update (memcpy dst offset cmdBuffer first n) (offset + n)
        (some (cmdBuffer (first + n))) := by
      rw [memcpy, List.range_succ, List.foldl_append]
      rfl
    rw [hlast, ih]
    funext j
    by_cases hj : j = offset + n
    · rw [hj, Function.update_self, if_pos (by omega), add_sub_cancel_left]
    · rw [Function.update_of_ne hj]
      exact if_congr (by omega) rfl rfl

/-- The words that were found in front of index `i`, and the beginning `w` of a word that ends there. -/
structure Found (cmdBuffer : Int → UInt8) (s : Split) (found : List (List UInt8)) (w : List UInt8)
    (i : Nat) : Prop where
  inToken : s.inToken = !w.isEmpty
  begins : w ≠ [] → s.splitStart + w.length = i
  chars : ∀ k : Nat, k < w.length → w[k]? = some (cmdBuffer (s.splitStart + k))
  programGet : s.programGet = !found.isEmpty
  program : ∀ word, found.head? = some word → Holds s.program word
  argsIndex : s.argsIndex = (found.length - 1 : Nat)
  args : ∀ j, j ∈ s.argsStores ↔ 0 ≤ j ∧ j < (found.length - 1 : Nat)
  room : 0 ≤ s.argBufferIndex ∧ s.argBufferIndex + w.length ≤ i
  argBuffer : ∀ j ∈ s.argBufferStores, 0 ≤ j ∧ j < s.argBufferIndex

variable {cmdBuffer : Int → UInt8} {r : Split} {found : List (List UInt8)} {i : Nat}

theorem found_start (cmdBuffer : Int → UInt8) : Found cmdBuffer .start [] [] 0 where
  inToken := rfl
  begins := fun hne => absurd rfl hne
  chars := fun k hk => absurd hk (Nat.not_lt_zero k)
  programGet := rfl
  program := nofun
  argsIndex := rfl
  args := fun _ => ⟨nofun, fun hj => absurd hj.2 (Int.not_lt.mpr hj.1)⟩
  room := ⟨Int.le_refl 0, Int.le_refl 0⟩
  argBuffer := nofun

/-- The length of a token is that of its word. -/
theorem Found.length_eq (h : Found cmdBuffer r found w i) (hw : w ≠ []) (hi : i < 2 ^ 32) :
    Split.length { r with splitEnd := i, inToken := false } = min w.length 127 := by
  have hbegins := h.begins hw
  have hroom := h.room
  have hlength : (((i : Int) - r.splitStart) % 2 ^ 32).toNat = w.length := by omega
  rw [Split.length, hlength]

/-- A character inside of a word. -/
theorem Found.char (h : Found cmdBuffer r found w i) (hc : ¬ separates (cmdBuffer i) = true) :
    Found cmdBuffer (r.next cmdBuffer i) found (w ++ [cmdBuffer i]) (i + 1) := by
  obtain ⟨hin, hbegins, hchars, hget, hprogram, hargsIndex, hargs, hroom, hbuffer⟩ := h
  have hlength : (w ++ [cmdBuffer i]).length = w.length + 1 := List.length_append
  have hnonempty : (w ++ [cmdBuffer i]).isEmpty = false :=
    List.isEmpty_eq_false_iff.mpr (List.append_ne_nil_of_right_ne_nil w (List.cons_ne_nil _ _))
  by_cases hw : w = []
  · subst hw
    have hnext : r.next cmdBuffer i = { r with splitStart := i, inToken := true } := by
      rw [Split.next, hin, if_neg hc]
      rfl
    rw [hnext]
    refine ⟨rfl, fun _ => rfl, fun k hk => ?_, hget, hprogram, hargsIndex, hargs,
      ⟨hroom.1, ?_⟩, hbuffer⟩
    · obtain rfl : k = 0 := Nat.lt_one_iff.mp hk
      exact congrArg (fun j => some (cmdBuffer j)) (Int.add_zero _).symm
    · have hle : r.argBufferIndex + 0 ≤ i := hroom.2
      show r.argBufferIndex + 1 ≤ (i + 1 : Nat)
      omega
  · have hlast := hbegins hw
    have hnext : r.next cmdBuffer i = r := by
      rw [Split.next, hin, List.isEmpty_eq_false_iff.mpr hw, if_neg hc, if_neg hc]
      rfl
    rw [hnext]
    refine ⟨?_, fun _ => ?_, fun k hk => ?_, hget, hprogram, hargsIndex, hargs, ⟨hroom.1, ?_⟩, hbuffer⟩
    · rw [hin, hnonempty, List.isEmpty_eq_false_iff.mpr hw]
    · rw [hlength]
      omega
    · by_cases hold : k < w.length
      · rw [List.getElem?_append_left hold]
        exact hchars k hold
      · obtain rfl : k = w.length := by omega
        rw [List.getElem?_concat_length, hlast]
    · rw [hlength]
      omega

theorem holdsAt_zero {program : Int → Option UInt8} : HoldsAt program 0 w ↔ Holds program w := by
  rw [HoldsAt, Holds]
  simp only [Int.zero_add]

/-- An array has a word that was copied to it. -/
theorem holdsAt_memcpy (dst : Int → Option UInt8) (offset : Int) {first : Int}
    (hchars : ∀ k : Nat, k < w.length → w[k]? = some (cmdBuffer (first + k))) :
    HoldsAt (Function.update (memcpy dst offset cmdBuffer first (min w.length 127))
      (offset + (min w.length 127 : Nat)) (some 0)) offset w := by
  refine ⟨fun k hk => ?_, Function.update_self ..⟩
  have hne : offset + (k : Int) ≠ offset + (min w.length 127 : Nat) := by omega
  rw [Function.update_of_ne hne, memcpy_eq]
  simp only
  rw [if_pos (by omega), hchars k (by omega), add_sub_cancel_left]

theorem holds_memcpy (dst : Int → Option UInt8) {first : Int}
    (hchars : ∀ k : Nat, k < w.length → w[k]? = some (cmdBuffer (first + k))) :
    Holds (Function.update (memcpy dst 0 cmdBuffer first (min w.length 127))
      (min w.length 127 : Nat) (some 0)) w := by
  have hcopy := holdsAt_memcpy dst 0 hchars
  rwa [holdsAt_zero, Int.zero_add] at hcopy

theorem Found.next_blank (h : Found cmdBuffer r found [] i) (hc : separates (cmdBuffer i) = true) :
    r.next cmdBuffer i = r := by
  rw [Split.next, h.inToken, if_pos hc]
  rfl

theorem Found.next_program (h : Found cmdBuffer r [] w i) (hw : w ≠ [])
    (hc : separates (cmdBuffer i) = true) :
    r.next cmdBuffer i = Split.setProgram cmdBuffer { r with splitEnd := i, inToken := false } := by
  rw [Split.next, h.inToken, List.isEmpty_eq_false_iff.mpr hw, if_pos hc, if_pos hc, h.programGet]
  rfl

theorem Found.next_arg (h : Found cmdBuffer r found w i) (hfound : found ≠ []) (hw : w ≠ [])
    (hc : separates (cmdBuffer i) = true) :
    r.next cmdBuffer i = Split.addArg cmdBuffer { r with splitEnd := i, inToken := false } := by
  rw [Split.next, h.inToken, List.isEmpty_eq_false_iff.mpr hw, if_pos hc, if_pos hc, h.programGet,
    List.isEmpty_eq_false_iff.mpr hfound]
  rfl

theorem filter_word (hw : w ≠ []) : [w].filter (!·.isEmpty) = [w] := by
  refine List.filter_eq_self.mpr fun v hv => ?_
  rw [List.mem_singleton.mp hv, List.isEmpty_eq_false_iff.mpr hw]
  rfl

/-- The end of a word. -/
theorem Found.separator (h : Found cmdBuffer r found w i) (hc : separates (cmdBuffer i) = true)
    (hi : i < 2 ^ 32) :
    Found cmdBuffer (r.next cmdBuffer i) (found ++ [w].filter (!·.isEmpty)) [] (i + 1) := by
  by_cases hw : w = []
  · subst hw
    have hnone : found ++ [([] : List UInt8)].filter (!·.isEmpty) = found := List.append_nil _
    rw [h.next_blank hc, hnone]
    exact { h with begins := fun hne => absurd rfl hne, room := ⟨h.room.1, Int.le_trans h.room.2 (by omega)⟩ }
  · have hlength := h.length_eq hw hi
    have hlast := h.begins hw
    have hcount : (found ++ [w]).length - 1 = found.length := by
      rw [List.length_append, List.length_singleton, Nat.add_sub_cancel]
    rw [filter_word hw]
    by_cases hfound : found = []
    · subst hfound
      rw [h.next_program hw hc, Split.setProgram, hlength]
      obtain ⟨hin, hbegins, hchars, hget, hprogram, hargsIndex, hargs, hroom, hbuffer⟩ := h
      refine ⟨rfl, fun hne => absurd rfl hne, fun k hk => absurd hk (Nat.not_lt_zero k), rfl,
        fun word hword => ?_, hargsIndex, hargs,
        ⟨hroom.1, ?_⟩, hbuffer⟩
      · obtain rfl : w = word := Option.some.inj hword
        exact holds_memcpy _ hchars
      · show r.argBufferIndex + 0 ≤ _
        omega
    · have hpos := List.length_pos_iff.mpr hfound
      rw [h.next_arg hfound hw hc, Split.addArg, hlength]
      obtain ⟨hin, hbegins, hchars, hget, hprogram, hargsIndex, hargs, hroom, hbuffer⟩ := h
      refine ⟨rfl, fun hne => absurd rfl hne, fun k hk => absurd hk (Nat.not_lt_zero k), ?_,
        fun word hword => ?_, ?_, fun j => ?_,
        ?_, fun j hj => ?_⟩
      · rw [List.isEmpty_eq_false_iff.mpr (List.append_ne_nil_of_left_ne_nil hfound _), hget,
          List.isEmpty_eq_false_iff.mpr hfound]
      · rw [List.head?_append_of_ne_nil _ hfound] at hword
        exact hprogram word hword
      · rw [hcount]
        show r.argsIndex + 1 = _
        omega
      · rw [hcount, List.mem_append, hargs, List.mem_singleton, hargsIndex]
        omega
      · show 0 ≤ r.argBufferIndex + (min w.length 127 : Nat) + 1 ∧
          r.argBufferIndex + (min w.length 127 : Nat) + 1 + 0 ≤ _
        omega
      · show 0 ≤ j ∧ j < r.argBufferIndex + (min w.length 127 : Nat) + 1
        rcases List.mem_append.mp hj with hj | hj
        · have hold := hbuffer j hj
          omega
        · obtain ⟨k, hk, hstored⟩ := List.mem_map.mp hj
          have hlt := List.mem_range.mp hk
          have hindex : r.argBufferIndex + k = j := hstored
          omega

/-- What a character and the end of a word keep holds behind the loop, of the words of the rest of the
line. -/
theorem split_loop {P : Split → List (List UInt8) → List UInt8 → Nat → Prop}
    (hchar : ∀ {r found w i}, P r found w i → ¬ separates (cmdBuffer i) = true →
      P (r.next cmdBuffer i) found (w ++ [cmdBuffer i]) (i + 1))
    (hseparator : ∀ {r found w i}, P r found w i → separates (cmdBuffer i) = true → i < 2 ^ 32 →
      P (r.next cmdBuffer i) (found ++ [w].filter (!·.isEmpty)) [] (i + 1))
    (h : P r found w i)
    (htext : ∀ k : Nat, k < text.length → text[k]? = some (cmdBuffer (i + k : Nat)))
    (hend : cmdBuffer (i + text.length : Nat) = 0) (hi : i + text.length < 2 ^ 32) :
    P ((List.range' i (text.length + 1)).foldl (fun s (i : Nat) => s.next cmdBuffer i) r)
      (found ++ wordsFrom w text) [] (i + text.length + 1) := by
  induction text generalizing r found w i with
  | nil =>
    have hzero : separates (cmdBuffer i) = true := by
      rw [show cmdBuffer i = 0 from hend]
      rfl
    rw [wordsFrom_nil]
    exact hseparator h hzero hi
  | cons c text ih =>
    have hc : c = cmdBuffer i := Option.some.inj (htext 0 (Nat.succ_pos _))
    have hshift : ∀ k, i + 1 + k = i + (k + 1) := fun k => by omega
    have hrest : ∀ k : Nat, k < text.length → text[k]? = some (cmdBuffer (i + 1 + k : Nat)) :=
      fun k hk => by
      rw [hshift]
      exact htext (k + 1) (Nat.succ_lt_succ hk)
    rw [List.length_cons] at hend hi
    have hlater : (i + 1 + text.length) + 1 = i + (text.length + 1) + 1 := by omega
    rw [List.length_cons, List.range'_succ, List.foldl_cons, ← hlater]
    by_cases hsep : separates c = true
    · rw [wordsFrom_separator hsep, ← wordsFrom_nil_left text, ← List.append_assoc]
      exact ih (hseparator h (hc ▸ hsep) (by omega)) hrest (by rw [hshift]; exact hend) (by omega)
    · rw [wordsFrom_char hsep, hc]
      exact ih (hchar h (hc ▸ hsep)) hrest (by rw [hshift]; exact hend) (by omega)

theorem Shows.line (h : Shows s e) : s.line = e.text := by
  have hcount : s.cmdEndIndex.toNat = e.text.length := by
    rw [h.length]
    exact Int.toNat_natCast _
  apply List.ext_getElem?
  intro k
  rw [Shell.line, hcount, List.getElem?_map]
  by_cases hk : k < e.text.length
  · rw [List.getElem?_range hk, h.text k hk]
    rfl
  · rw [List.getElem?_eq_none (by rw [List.length_range]; omega), List.getElem?_eq_none (by omega)]
    rfl

/-- `run_program` finds the words of the line. -/
theorem Shows.found_words (h : Shows s e) (hpos : s.cmdEndIndex ≠ 0) (hshort : e.text.length ≤ 511) :
    Found s.cmdBuffer (Shell.split s.cmdBuffer s.cmdEndIndex) (words s.line) []
      (e.text.length + 1) := by
  have hlength := h.length
  have hcount : (s.cmdEndIndex + 1).toNat = e.text.length + 1 := by omega
  have hend : s.cmdBuffer (0 + e.text.length : Nat) = 0 := by
    rw [Nat.zero_add, ← hlength]
    exact h.terminated (by omega)
  have htext : ∀ k : Nat, k < e.text.length → e.text[k]? = some (s.cmdBuffer (0 + k : Nat)) := by
    intro k hk
    rw [Nat.zero_add]
    exact h.text k hk
  have hloop := split_loop Found.char Found.separator (found_start s.cmdBuffer) htext hend (by omega)
  rw [wordsFrom_nil_left, List.nil_append, Nat.zero_add] at hloop
  rw [Shell.split, hcount, List.range_eq_range', h.line]
  exact hloop

/-! ## Steps of the shell -/

/-- The shell has kept inside of its arrays, and it shows a line that fits in the buffer. -/
structure Ready (s : Shell) : Prop where
  safe : Safe s
  line : ∃ e, Shows s e ∧ e.text.length ≤ 511

theorem safe_prompt : Safe s.prompt ↔ Safe s :=
  ⟨fun h => ⟨h.cmdBuffer, h.args, h.argBuffer, h.execs⟩,
    fun h => ⟨h.cmdBuffer, h.args, h.argBuffer, h.execs⟩⟩

/-- To run a line is safe exactly if it has from one to 33 words. -/
theorem safe_runProgram_iff (h : Shows s e) (hpos : s.cmdEndIndex ≠ 0)
    (hshort : e.text.length ≤ 511) (hsafe : Safe s)
    (forked : Bool) :
    Safe (s.runProgram forked) ↔ (words s.line).length ≤ 33 ∧ (forked = true → words s.line ≠ []) := by
  have hfound := h.found_words hpos hshort
  constructor
  · intro hrun
    refine ⟨?_, fun hforked hnone => ?_⟩
    · by_contra hmany
      have hstored : 32 ∈ (Shell.split s.cmdBuffer s.cmdEndIndex).argsStores :=
        (hfound.args 32).mpr (by omega)
      exact Int.lt_irrefl 32 (hrun.args 32 (List.mem_append_right _ hstored)).2
    · subst hforked
      obtain ⟨word, hword, -⟩ := hrun.execs _ (List.mem_append_right _ (List.mem_singleton_self _))
      rw [hnone] at hword
      cases hword
  · rintro ⟨hmany, hsome⟩
    refine ⟨hsafe.cmdBuffer, fun i hi => ?_, fun i hi => ?_, fun call hcall => ?_⟩
    · rcases List.mem_append.mp hi with hi | hi
      · exact hsafe.args i hi
      · have hindex := (hfound.args i).mp hi
        omega
    · rcases List.mem_append.mp hi with hi | hi
      · exact hsafe.argBuffer i hi
      · have hindex := hfound.argBuffer i hi
        have hroom := hfound.room
        rw [List.length_nil] at hroom
        omega
    · rcases List.mem_append.mp hcall with hcall | hcall
      · exact hsafe.execs call hcall
      · cases forked with
        | false => cases hcall
        | true =>
          obtain rfl := List.mem_singleton.mp hcall
          have hhead := List.head?_eq_some_head (hsome rfl)
          exact ⟨_, List.head_mem (hsome rfl), hfound.program _ hhead⟩

theorem insert_stores (s : Shell) (c : BitVec 32) : s.cmdEndIndex + 1 ∈ (s.insert c).stores := by
  rw [Shell.insert, shiftRight_eq]
  exact List.mem_append_right _ (List.mem_singleton_self _)

/-- A key is safe exactly if there is room for it. -/
theorem safe_key_iff (h : Shows s e) (hshort : e.text.length ≤ 511) (hsafe : Safe s)
    (hstep : s.step input = some t)
    (hedited : Edited s t (e.key input.c)) :
    Safe t ↔ (32 ≤ input.c.toInt ∧ input.c.toInt < 128 → s.cmdEndIndex < 511) := by
  have hlength := h.length
  have hkey := LineEditor.length_key_le (e := e) input.c
  constructor
  · rintro hsafe' ⟨hprint, hsmall⟩
    have hne : ∀ d : BitVec 32, d.toInt < 32 → input.c ≠ d :=
      fun d hd heq => absurd hprint (by rw [heq]; omega)
    have hinsert : s.step input = some (s.insert input.c) := by
      rw [Shell.step]
      simp only [if_pos hsmall, if_pos hprint, if_neg (hne 10 (by decide)), if_neg (hne 12 (by decide)),
        hne 8 (by decide), false_and, if_false]
    obtain rfl := Option.some.inj (hinsert.symm.trans hstep)
    have hlast := hsafe'.cmdBuffer _ (insert_stores s input.c)
    omega
  · intro hroom
    have hfits : (e.key input.c).text.length ≤ 511 := by
      split_ifs at hkey with hprint
      · have hlt := hroom hprint
        omega
      · omega
    refine ⟨fun i hi => ?_, ?_, ?_, ?_⟩
    · rcases hedited.stores i hi with hold | hnew
      · exact hsafe.cmdBuffer i hold
      · exact ⟨hnew.1, by omega⟩
    · rw [hedited.argsStores]
      exact hsafe.args
    · rw [hedited.argBufferStores]
      exact hsafe.argBuffer
    · rw [hedited.execs]
      exact hsafe.execs

theorem fits_iff_of_ne (hne : input.c ≠ 10) :
    Fits s input ↔ (32 ≤ input.c.toInt ∧ input.c.toInt < 128 → s.cmdEndIndex < 511) :=
  and_iff_left fun hruns => absurd hruns.1 hne

theorem step_newline (hc : input.c = 10) : s.step input = s.enter input.forked := by
  rw [Shell.step, hc]
  rfl

theorem step_clear (hc : input.c = 12) : s.step input = some s.prompt := by
  rw [Shell.step, hc]
  rfl

/-- A new line is safe exactly if the program that it runs is. -/
theorem safe_enter_iff (h : Shows s e) (hshort : e.text.length ≤ 511) (hsafe : Safe s)
    (hc : input.c = 10)
    (henter : s.enter input.forked = some t) : (Safe t ↔ Fits s input) ∧ ∃ u : Shell, t = u.prompt := by
  have hsmall : ¬ (32 ≤ input.c.toInt ∧ input.c.toInt < 128) := by
    rw [hc]
    decide
  have hidle : ¬ s.RunsProgram input.c → Fits s input :=
    fun hnot => ⟨fun hprint => absurd hprint hsmall, fun hruns => absurd hruns hnot⟩
  rw [enter] at henter
  split_ifs at henter with hempty hexit hclear
  · obtain rfl := Option.some.inj henter
    exact ⟨iff_of_true (safe_prompt.mpr hsafe) (hidle fun hruns => hruns.2.1 hempty), s, rfl⟩
  · obtain rfl := Option.some.inj henter
    exact ⟨iff_of_true (safe_prompt.mpr hsafe) (hidle fun hruns => hruns.2.2.2 hclear), s, rfl⟩
  · obtain rfl := Option.some.inj henter
    refine ⟨?_, _, rfl⟩
    rw [safe_prompt, safe_runProgram_iff h hempty hshort hsafe]
    exact ⟨fun hwords => ⟨fun hprint => absurd hprint hsmall, fun _ => hwords⟩,
      fun hfits => hfits.2 ⟨hc, hempty, hexit, hclear⟩⟩

/-- A step is safe exactly if it fits, and then the next line fits in the buffer. -/
theorem Ready.step (h : Ready s) (hstep : s.step input = some t) :
    (Safe t ↔ Fits s input) ∧ (Safe t → Ready t) := by
  obtain ⟨hsafe, e, hshows, hshort⟩ := h
  have hprompt : ∀ u : Shell, Safe u.prompt → Ready u.prompt :=
    fun u hu => ⟨hu, LineEditor.empty, shows_prompt u, Nat.zero_le _⟩
  by_cases hnewline : input.c = 10
  · rw [step_newline hnewline] at hstep
    obtain ⟨hiff, u, rfl⟩ := safe_enter_iff hshows hshort hsafe hnewline hstep
    exact ⟨hiff, hprompt u⟩
  · rw [fits_iff_of_ne hnewline]
    by_cases hclear : input.c = 12
    · rw [step_clear hclear] at hstep
      obtain rfl := Option.some.inj hstep
      have hsmall : ¬ (32 ≤ input.c.toInt ∧ input.c.toInt < 128) := by
        rw [hclear]
        decide
      exact ⟨iff_of_true (safe_prompt.mpr hsafe) fun hprint => absurd hprint hsmall, hprompt s⟩
    · obtain ⟨u, hu, hedited⟩ := hshows.step hnewline hclear
      obtain rfl := Option.some.inj (hu.symm.trans hstep)
      have hiff := safe_key_iff hshows hshort hsafe hstep hedited
      refine ⟨hiff, fun hsafe' => ⟨hsafe', _, hedited.toShows, ?_⟩⟩
      have hlength := hshows.length
      have hkey := LineEditor.length_key_le (e := e) input.c
      split_ifs at hkey with hprint
      · have hlt := hiff.mp hsafe' hprint
        omega
      · omega

/-! ## Runs of the shell -/

theorem ready_start (cmdBuffer : Int → UInt8) : Ready (start cmdBuffer) := by
  refine ⟨⟨fun i hi => ?_, nofun, nofun, nofun⟩, _, shows_prompt _, Nat.zero_le _⟩
  rw [List.mem_singleton.mp hi]
  decide

/-- The shell keeps inside of its arrays and runs only programs that were set, in all states of a run, exactly
if every character of the run fits. -/
theorem shell_safe_iff {cmdBuffer : Int → UInt8} {inputs : List Input}
    (h : Runs.Run (Runs.Steps Shell.step) (start cmdBuffer) inputs s) :
    (∀ earlier u, earlier <+: inputs →
      Runs.Run (Runs.Steps Shell.step) (start cmdBuffer) earlier u → Safe u) ↔
      Runs.Run (Runs.Guarded Fits (Runs.Steps Shell.step)) (start cmdBuffer) inputs s :=
  Runs.throughout_iff (fun hready hfits hstep =>
    (hready.step hstep).2 ((hready.step hstep).1.mpr hfits))
    (fun hready hstep => (hready.step hstep).1) (ready_start cmdBuffer) (ready_start cmdBuffer).safe h

instance : Decidable (RunsProgram s input.c) := inferInstanceAs (Decidable (_ ∧ _))

instance : Decidable (Fits s input) := inferInstanceAs (Decidable (_ ∧ _))

def testFits (s : Shell) (input : Input) : Bool := decide (Fits s input)

/-- The characters of a line, and the new line. -/
def typed (text : List UInt8) : List Input :=
  (text ++ [10]).map fun c : UInt8 => ⟨BitVec.ofNat 32 c.toNat, true⟩

/-- `cat a`. -/
theorem shell_safe_cat : ∃ s, Runs.Run (Runs.Steps Shell.step) (start fun _ => 0)
    (typed [99, 97, 116, 32, 97]) s ∧
    ∀ earlier u, earlier <+: typed [99, 97, 116, 32, 97] →
    Runs.Run (Runs.Steps Shell.step) (start fun _ => 0) earlier u → Safe u := by
  have hsome : (Runs.execute (Runs.permit testFits Shell.step) (start fun _ => 0)
    (typed [99, 97, 116, 32, 97])).isSome = true := by
    decide +kernel
  obtain ⟨s, hs⟩ := Option.isSome_iff_exists.mp hsome
  have hguarded : Runs.Run (Runs.Guarded Fits (Runs.Steps Shell.step)) (start fun _ => 0)
    (typed [99, 97, 116, 32, 97]) s :=
    Runs.run_of_execute_permit of_decide_eq_true hs
  exact ⟨s, hguarded.unguard, (shell_safe_iff hguarded.unguard).mpr hguarded⟩

/-! ## Lines that are not safe -/

/-- A line of any length can be typed. -/
theorem exists_line (s : Shell) (n : Nat) :
    ∃ t e, Runs.Run (Runs.Steps Shell.step) s.prompt (List.replicate n ⟨97, true⟩) t ∧
    Shows t e ∧ e.text.length = n := by
  induction n with
  | zero => exact ⟨_, _, .nil _, shows_prompt s, rfl⟩
  | succ n ih =>
    obtain ⟨t, e, hrun, hshows, hlength⟩ := ih
    have hinput : (⟨97, true⟩ : Input).c ≠ 10 ∧ (⟨97, true⟩ : Input).c ≠ 12 := by decide
    obtain ⟨u, hstep, hedited⟩ := hshows.step hinput.1 hinput.2
    have hkey : e.key 97 = e.insert 97 := by
      rw [LineEditor.key, if_neg (by decide), if_pos (by decide)]
      rfl
    refine ⟨u, e.key 97, ?_, hedited.toShows, ?_⟩
    · rw [List.replicate_succ']
      exact hrun.snoc hstep
    · rw [hkey, LineEditor.insert, List.length_insertIdx_of_le_length e.inside, hlength]

/-- A line of 512 letters overruns the command buffer, 34 words overrun the array of arguments, and a line
of one space makes a child run a program that was never set. -/
theorem shell_overruns :
    (¬ ∀ inputs s, Runs.Run (Runs.Steps Shell.step) (start fun _ => 0) inputs s → ∀ i ∈ s.stores,
      0 ≤ i ∧ i < 512) ∧
      (¬ ∀ inputs s, Runs.Run (Runs.Steps Shell.step) (start fun _ => 0) inputs s →
        ∀ i ∈ s.argsStores, 0 ≤ i ∧ i < 32) ∧
      ¬ ∀ inputs s, Runs.Run (Runs.Steps Shell.step) (start fun _ => 0) inputs s →
        ∀ call ∈ s.execs, ∃ word ∈ words call.line, Holds call.program word := by
  refine ⟨fun hall => ?_, fun hall => ?_, fun hall => ?_⟩
  · obtain ⟨t, e, hrun, hshows, hlength⟩ := exists_line (start fun _ => 0) 511
    have hstep : t.step ⟨97, true⟩ = some (t.insert 97) := rfl
    have hlast := hall _ _ (hrun.snoc hstep) _ (insert_stores t 97)
    have hend := hshows.length
    omega
  · have hrun : (Runs.execute Shell.step (start fun _ => 0)
      (typed (List.replicate 34 [97, 32]).flatten)).map
        (fun s => decide (32 ∈ s.argsStores)) = some true := by decide +kernel
    obtain ⟨s, hs, hmem⟩ := Option.map_eq_some_iff.mp hrun
    exact Int.lt_irrefl 32 (hall _ _ (Runs.run_of_execute hs) 32 (of_decide_eq_true hmem)).2
  · have hrun : (Runs.execute Shell.step (start fun _ => 0) (typed [32])).map (fun s =>
      s.execs.map fun call => words call.line) =
        some [[]] := by decide +kernel
    obtain ⟨s, hs, hmem⟩ := Option.map_eq_some_iff.mp hrun
    obtain ⟨call, hcall, hwords⟩ := List.mem_map.mp (hmem ▸ List.mem_singleton_self [])
    obtain ⟨word, hword, -⟩ := hall _ _ (Runs.run_of_execute hs) call hcall
    rw [hwords] at hword
    cases hword

end Shell

end LuckOS
