import LuckOS.ShellRuns
import Mathlib.Order.Monotone.Basic

/-!
# The words of a command line

`run_program` copies the first word of a line to `program` and the others one behind the other to
`arg_buffer`, each cut to 127 characters and with a zero behind it. Leading, trailing and repeated spaces
make no difference.
-/

namespace LuckOS

namespace Shell

/-- The maximal runs of characters that are not spaces. -/
def spaceFree (text : List UInt8) : List (List UInt8) := (text.splitOn 0x20).filter (!·.isEmpty)

/-- The place of an argument behind those in front of it, each of which takes a zero more. -/
def place (args : List (List UInt8)) (k : Nat) : Nat :=
  ((args.take k).map fun word => min word.length 127 + 1).sum

/-- The arguments that were found are copied one behind the other. -/
structure Placed (r : Split) (args : List (List UInt8)) : Prop where
  argBufferIndex : r.argBufferIndex = place args args.length
  addresses : ∀ k : Nat, k < args.length → r.args k = some (place args k : Int)
  copies : ∀ (k : Nat) word, args[k]? = some word → HoldsAt r.argBuffer (place args k) word

variable {cmdBuffer : Int → UInt8} {r r' : Split} {found args : List (List UInt8)}
  {w word text : List UInt8} {i j k : Nat} {c : UInt8}

/-! ## Places -/

theorem place_succ (h : args[k]? = some word) :
    place args (k + 1) = place args k + (min word.length 127 + 1) := by
  rw [place, List.take_add_one, h, Option.toList_some, List.map_append, List.sum_append,
    List.map_singleton,
    List.sum_singleton, place]

theorem place_mono (args : List (List UInt8)) (h : j ≤ k) : place args j ≤ place args k := by
  refine monotone_nat_of_le_succ (fun k => ?_) h
  cases hget : args[k]? with
  | some word =>
    rw [place_succ hget]
    exact Nat.le_add_right ..
  | none => rw [place, place, List.take_add_one, hget, Option.toList_none, List.append_nil]

/-- An argument with its zero ends in front of those behind it. -/
theorem place_lt (h : args[j]? = some word) (hjk : j < k) :
    place args j + min word.length 127 < place args k := by
  have hnext := place_succ h
  have hmono : place args (j + 1) ≤ place args k := place_mono args hjk
  omega

theorem place_append (h : k ≤ args.length) (w : List UInt8) :
    place (args ++ [w]) k = place args k := by
  rw [place, List.take_append_of_le_length h, place]

/-! ## The loop of `run_program` -/

theorem Placed.congr (h : Placed r args) (hindex : r'.argBufferIndex = r.argBufferIndex)
    (haddresses : r'.args = r.args) (hbuffer : r'.argBuffer = r.argBuffer) : Placed r' args :=
  ⟨hindex.trans h.argBufferIndex, haddresses ▸ h.addresses, hbuffer ▸ h.copies⟩

theorem Placed.char (h : Placed r args) (hc : ¬ separates (cmdBuffer i) = true) :
    Placed (r.next cmdBuffer i) args := by
  rw [Split.next, if_neg hc, if_neg hc]
  split_ifs
  · exact h.congr rfl rfl rfl
  · exact h

/-- The word that ends is copied behind the arguments. -/
theorem Placed.addArg (h : Placed r args) (hargsIndex : r.argsIndex = args.length)
    (hlength : r.length = min w.length 127)
    (hchars : ∀ k : Nat, k < w.length → w[k]? = some (cmdBuffer (r.splitStart + k))) :
    Placed (r.addArg cmdBuffer) (args ++ [w]) := by
  obtain ⟨hindex, haddresses, hcopies⟩ := h
  have hlast : (args ++ [w])[args.length]? = some w := List.getElem?_concat_length
  have hplace : place (args ++ [w]) args.length = place args args.length :=
    place_append (Nat.le_refl _) w
  have hcount : (args ++ [w]).length = args.length + 1 := by
    rw [List.length_append, List.length_singleton]
  rw [Split.addArg, hlength, hindex, hargsIndex]
  refine ⟨?_, fun k hk => ?_, fun k word hword => ?_⟩
  · rw [hcount, place_succ hlast, hplace]
    simp only
    omega
  · rw [hcount] at hk
    by_cases hnew : k = args.length
    · rw [hnew, hplace]
      exact Function.update_self ..
    · have hne : (k : Int) ≠ args.length := by omega
      rw [place_append (by omega)]
      exact (Function.update_of_ne hne ..).trans (haddresses k (by omega))
  · by_cases hnew : k < args.length
    · rw [List.getElem?_append_left hnew] at hword
      have hbefore := place_lt hword hnew
      have hsame : ∀ l : Int, l ≤ place args k + (min word.length 127 : Nat) →
          Function.update (memcpy r.argBuffer (place args args.length) cmdBuffer r.splitStart
            (min w.length 127)) (place args args.length + (min w.length 127 : Nat)) (some 0) l =
              r.argBuffer l := by
        intro l hl
        rw [Function.update_of_ne (by omega), memcpy_eq]
        exact if_neg (by omega)
      obtain ⟨hchars', hzero⟩ := hcopies k word hword
      rw [place_append (Nat.le_of_lt hnew)]
      refine ⟨fun l hl => ?_, ?_⟩
      · exact (hsame _ (by omega)).trans (hchars' l hl)
      · exact (hsame _ (by omega)).trans hzero
    · have hk : k = args.length := by
        have hlt := (List.getElem?_eq_some_iff.mp hword).1
        rw [hcount] at hlt
        omega
      subst hk
      obtain rfl := Option.some.inj (hlast.symm.trans hword)
      rw [hplace]
      exact holdsAt_memcpy _ _ hchars

/-- The end of a word, with the words in front of it. -/
theorem Found.placed (h : Found cmdBuffer r found w i) (hplaced : Placed r found.tail)
    (hc : separates (cmdBuffer i) = true) (hi : i < 2 ^ 32) :
    Placed (r.next cmdBuffer i) (found ++ [w].filter (!·.isEmpty)).tail := by
  by_cases hw : w = []
  · subst hw
    rw [h.next_blank hc]
    exact (List.append_nil found).symm ▸ hplaced
  · rw [filter_word hw]
    by_cases hfound : found = []
    · subst hfound
      rw [h.next_program hw hc]
      exact hplaced.congr rfl rfl rfl
    · rw [h.next_arg hfound hw hc, List.tail_append_of_ne_nil hfound]
      refine Placed.addArg (hplaced.congr rfl rfl rfl) ?_ (h.length_eq hw hi) h.chars
      rw [List.length_tail]
      exact h.argsIndex

/-- Without a zero in the line, its words are those between the spaces. -/
theorem words_eq_spaceFree (h : 0 ∉ text) : words text = spaceFree text := by
  have hsame : text.splitOnP separates = text.splitOnP (· == 0x20) := by
    induction text with
    | nil => rfl
    | cons c text ih =>
      obtain ⟨hc, hrest⟩ := not_or.mp (mt List.mem_cons.mpr h)
      have hsep : separates c = (c == 0x20) := by
        rw [separates, beq_eq_false_iff_ne.mpr (Ne.symm hc), Bool.or_false]
      rw [List.splitOnP_cons_eq_if_modifyHead, List.splitOnP_cons_eq_if_modifyHead, hsep, ih hrest]
  rw [words, spaceFree, List.splitOn, hsame]

theorem placed_start : Placed .start [] := ⟨rfl, nofun, nofun⟩

/-- `run_program` splits every line that fits in the buffer and has no more words than there are places. The
first word is the program, the others are the arguments, and no two of them overlap. -/
theorem run_program_splits (hline : ∀ k : Nat, k < text.length → text[k]? = some (cmdBuffer k))
    (hend : cmdBuffer text.length = 0) (hnonzero : 0 ∉ text) (hlength : text.length ≤ 511)
    (hwords : spaceFree text = word :: args) (hcount : args.length ≤ 32) :
    Holds (split cmdBuffer text.length).program word ∧
      (split cmdBuffer text.length).argsIndex = args.length ∧
      (∀ (k : Nat) arg, args[k]? = some arg → ∃ offset : Int,
        (split cmdBuffer text.length).args k = some offset ∧
          HoldsAt (split cmdBuffer text.length).argBuffer offset arg) ∧
      (∀ (j k : Nat) arg (offset offset' : Int), j < k → k < args.length → args[j]? = some arg →
        (split cmdBuffer text.length).args j = some offset →
        (split cmdBuffer text.length).args k = some offset' →
          offset + (min arg.length 127 : Nat) < offset') ∧
      (∀ i ∈ (split cmdBuffer text.length).argsStores, 0 ≤ i ∧ i < 32) ∧
      ∀ i ∈ (split cmdBuffer text.length).argBufferStores, 0 ≤ i ∧ i < 32 * 128 := by
  have htext : ∀ k : Nat, k < text.length → text[k]? = some (cmdBuffer (0 + k : Nat)) := by
    intro k hk
    rw [Nat.zero_add]
    exact hline k hk
  have hzero : cmdBuffer (0 + text.length : Nat) = 0 := by
    rw [Nat.zero_add]
    exact hend
  have hrounds : ((text.length : Int) + 1).toNat = text.length + 1 := by omega
  have hloop := split_loop
    (P := fun r found w i => Found cmdBuffer r found w i ∧ Placed r found.tail)
    (fun h hc => ⟨h.1.char hc, h.2.char hc⟩)
    (fun h hc hi => ⟨h.1.separator hc hi, h.1.placed h.2 hc hi⟩)
    ⟨found_start cmdBuffer, placed_start⟩ htext hzero (by omega)
  rw [wordsFrom_nil_left, List.nil_append, Nat.zero_add, words_eq_spaceFree hnonzero, hwords,
    List.tail_cons, ← List.range_eq_range', ← hrounds] at hloop
  obtain ⟨hfound, hplaced⟩ := hloop
  have hcount' : (word :: args).length - 1 = args.length := rfl
  have hroom := hfound.room
  rw [List.length_nil] at hroom
  refine ⟨hfound.program word rfl, hfound.argsIndex, fun k arg harg => ?_, ?_, fun i hi => ?_,
    fun i hi => ?_⟩
  · exact ⟨_, hplaced.addresses k (List.getElem?_eq_some_iff.mp harg).1, hplaced.copies k arg harg⟩
  · intro j k arg offset offset' hjk hk harg hj hk'
    have hbefore := place_lt harg hjk
    obtain rfl := Option.some.inj (hj.symm.trans (hplaced.addresses j (Nat.lt_trans hjk hk)))
    obtain rfl := Option.some.inj (hk'.symm.trans (hplaced.addresses k hk))
    omega
  · have hindex := (hfound.args i).mp hi
    omega
  · have hindex := hfound.argBuffer i hi
    omega

/-- `" cat  a b"`, behind a leading space and with two spaces in it. -/
def catLine : List UInt8 := [32, 99, 97, 116, 32, 32, 97, 32, 98]

def catBuffer (i : Int) : UInt8 := catLine.getD i.toNat 0

theorem splits_cat : Holds (split catBuffer 9).program [99, 97, 116] ∧
    (split catBuffer 9).argsIndex = 2 := by
  have hwords : spaceFree catLine = [99, 97, 116] :: [[97], [98]] := by decide +kernel
  have hline : ∀ k : Nat, k < catLine.length → catLine[k]? = some (catBuffer k) := by decide
  obtain ⟨hprogram, hargsIndex, -⟩ :=
    run_program_splits hline (by decide) (by decide) (by decide) hwords (by decide)
  exact ⟨hprogram, hargsIndex⟩

end Shell

end LuckOS
