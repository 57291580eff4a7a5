import LuckOS.Bitmap

/-!
# The formatters of `common/stdlib.c` and `monitor/monitor.c`

`sprintf` and `monitor_printf_args` run the same loop over the format with number writers of their
own. A string is the list of its characters in front of the terminating zero. The loop is kept with
what each of its turns writes.
-/

namespace LuckOS

/-- An argument: a word, or the string that it points to. -/
inductive FormatArg where
  | word (w : Word)
  | str (s : List Char)

namespace Formatters

/-- `first + n`. -/
def charFrom (first : Char) (n : Nat) : Char := Char.ofNat (first.toNat + n)

/-- The loops of `int2str` and `int2hex` that fill a buffer from its end. -/
def fillBuf (base : Int) (digit : Nat → Char) : Nat → Int → List Char → List Char
  | 0, _, buf => buf
  | places + 1, num, buf =>
    if 0 < num then fillBuf base digit places (num / base) (digit (num % base).toNat :: buf) else buf

/-- The digit of `int2hex`. -/
def hexDigit (remain : Nat) : Char :=
  if remain ≤ 9 then charFrom '0' remain else charFrom 'a' (remain - 10)

/-- The sign that `int2str`, `int2hex` and `monitor_write_dec_with_color` write, and the number after it. -/
def splitSign (num : Word) : List Char × Word := if num.toInt < 0 then (['-'], -num) else ([], num)

/-- `int2str`. -/
def int2str (num : Word) : List Char :=
  let (start, num) := splitSign num
  start ++ fillBuf 10 (charFrom '0') 15 num.toInt []

/-- `int2hex`. -/
def int2hex (num : Word) : List Char :=
  let (start, num) := splitSign num
  start ++ ['0', 'x'] ++ fillBuf 16 hexDigit 15 num.toInt []

/-- The loop of `monitor_write_dec_with_color` that collects the digits. -/
def collectDigits : Nat → Nat → List Char
  | 0, _ => []
  | places + 1, acc => if 0 < acc then charFrom '0' (acc % 10) :: collectDigits places (acc / 10) else []

/-- `monitor_write_dec_with_color`. The collected digits are copied in the opposite order. -/
def monitorWriteDec (n : Word) : List Char :=
  if n = 0 then ['0']
  else
    let (start, n) := splitSign n
    start ++ (collectDigits 31 n.toNat).reverse

/-- The digit of `monitor_write_hex_withc_color`. -/
def nibbleChar (tmp : Nat) : Char := if 0xA ≤ tmp then charFrom 'a' (tmp - 0xA) else charFrom '0' tmp

/-- The loop of `monitor_write_hex_withc_color`, whose shift is `4 * k`, with the flag for leading zeros. -/
def nibbles (n : Word) : Nat → Bool × List Char → Bool × List Char
  | 0, out => out
  | k + 1, (noZeroes, out) =>
    let tmp := (n >>> (4 * (k + 1)) &&& 0xF).toNat
    nibbles n k (if tmp = 0 ∧ noZeroes then (noZeroes, out) else (false, out ++ [nibbleChar tmp]))

/-- `monitor_write_hex_withc_color`. -/
def monitorWriteHex (n : Word) : List Char :=
  ['0', 'x'] ++ (nibbles n 7 (true, [])).2 ++ [nibbleChar (n &&& 0xF).toNat]

/-- What a directive writes for its argument. -/
abbrev Conversion := FormatArg → Option (List Char)

def ofWord (f : Word → List Char) : Conversion
  | .word w => some (f w)
  | .str _ => none

def verbatim : Conversion
  | .word _ => none
  | .str s => some s

/-- The directives of `sprintf`. -/
def sprintfConversion : Char → Option Conversion
  | 'd' => some (ofWord int2str)
  | 'u' => some (ofWord int2str)
  | 'x' => some (ofWord int2hex)
  | 's' => some verbatim
  | _ => none

/-- The directives of `monitor_printf_args`. -/
def monitorConversion : Char → Option Conversion
  | 'd' => some (ofWord monitorWriteDec)
  | 'u' => some (ofWord monitorWriteDec)
  | 'x' => some (ofWord monitorWriteHex)
  | 'c' => some (ofWord fun w => [Char.ofNat (w.toNat % 256)])
  | 's' => some verbatim
  | _ => none

/-- The loop of both formatters. Other directives write nothing. A format that ends in `%` is read
behind its end, and an argument that is missing from behind the last one. -/
def turns (conversion : Char → Option Conversion) : List Char → List FormatArg → Option (List (List Char))
  | [], _ => some []
  | c :: str, args =>
    if c = '%' then
      match str with
      | [] => none
      | next :: str =>
        match conversion next, args with
        | none, args => turns conversion str args
        | some _, [] => none
        | some f, arg :: args => (f arg).bind fun out => (turns conversion str args).map (out :: ·)
    else (turns conversion str args).map ([c] :: ·)

/-- `sprintf`. -/
def sprintf (str : List Char) (args : List FormatArg) : Option (List Char) :=
  (turns sprintfConversion str args).map List.flatten

/-- `monitor_printf_args`. -/
def monitorPrintfArgs (str : List Char) (args : List FormatArg) : Option (List Char) :=
  (turns monitorConversion str args).map List.flatten

/-- Decimal numerals of integers. -/
def decimal (n : Int) : List Char := if n < 0 then '-' :: Nat.toDigits 10 n.natAbs else Nat.toDigits 10 n.natAbs

/-- The meaning of the directives. -/
def meaning : Char → Option Conversion
  | 'd' => some (ofWord fun w => decimal w.toInt)
  | 'u' => some (ofWord fun w => Nat.toDigits 10 w.toNat)
  | 'x' => some (ofWord fun w => ['0', 'x'] ++ Nat.toDigits 16 w.toNat)
  | 's' => some verbatim
  | _ => none

/-- Each `%` is followed by `d`, `u`, `x` or `s`, and the arguments are of the kinds that these read. -/
inductive Matches : List Char → List FormatArg → Prop
  | nil : Matches [] []
  | char {c : Char} {str : List Char} {args : List FormatArg} (hc : c ≠ '%') (h : Matches str args) : Matches (c :: str) args
  | number {d : Char} {str : List Char} {args : List FormatArg} (hd : d = 'd' ∨ d = 'u' ∨ d = 'x') (w : Word)
      (h : Matches str args) : Matches ('%' :: d :: str) (.word w :: args)
  | string {str : List Char} {args : List FormatArg} (s : List Char) (h : Matches str args) :
      Matches ('%' :: 's' :: str) (.str s :: args)

/-- The numbers of an argument list, with their directives. -/
def numbers : List Char → List FormatArg → List (Char × Word)
  | [], _ => []
  | c :: str, args =>
    if c = '%' then
      match str, args with
      | d :: str, .word w :: args => (d, w) :: numbers str args
      | _ :: str, .str _ :: args => numbers str args
      | _, _ => []
    else numbers str args

/-- `%d` prints all but 0 and the least integer, and `%u` and `%x` print the positive integers. -/
def Printable (d : Char) (w : Word) : Prop :=
  if d = 'd' then w ≠ 0 ∧ w ≠ BitVec.intMin 32 else 0 < w.toInt

instance (d : Char) (w : Word) : Decidable (Printable d w) :=
  inferInstanceAs (Decidable (ite _ _ _))

/-- The two formatters agree, and each directive is rendered by what it means. -/
def Faithful (str : List Char) (args : List FormatArg) : Prop :=
  sprintf str args = monitorPrintfArgs str args ∧ turns sprintfConversion str args = turns meaning str args ∧
    turns monitorConversion str args = turns meaning str args

variable {base n places : Nat} {str : List Char} {args : List FormatArg} {d : Char} {w : Word} {buf : List Char}

/-! ## Digits -/

theorem charFrom_eq_digitChar (h : n < 10) : charFrom '0' n = n.digitChar := by
  have hall : ∀ n, n < 10 → charFrom '0' n = n.digitChar := by decide
  exact hall n h

theorem hexDigit_eq_digitChar (h : n < 16) : hexDigit n = n.digitChar := by
  have hall : ∀ n, n < 16 → hexDigit n = n.digitChar := by decide
  exact hall n h

theorem nibbleChar_eq_digitChar (h : n < 16) : nibbleChar n = n.digitChar := by
  have hall : ∀ n, n < 16 → nibbleChar n = n.digitChar := by decide
  exact hall n h

/-- The digits of a number without those of 0. -/
def significant (base n : Nat) : List Char := if n = 0 then [] else Nat.toDigits base n

theorem significant_eq (hbase : 1 < base) (hn : 0 < n) :
    significant base n = significant base (n / base) ++ [(n % base).digitChar] := by
  rw [significant, if_neg (Nat.ne_of_gt hn), Nat.toDigits_eq_if hbase, significant]
  by_cases hlt : n < base
  · rw [if_pos hlt, Nat.div_eq_of_lt hlt, Nat.mod_eq_of_lt hlt]
    rfl
  · have hpos : 0 < n / base := Nat.div_pos (Nat.le_of_not_lt hlt) (Nat.lt_of_succ_lt hbase)
    rw [if_neg hlt, if_neg (Nat.ne_of_gt hpos)]

/-- The buffer is filled with the digits of the number. -/
theorem fillBuf_eq {digit : Nat → Char} (hbase : 1 < base) (hdigit : ∀ i, i < base → digit i = i.digitChar)
    (hplaces : n < base ^ places) : fillBuf base digit places n buf = significant base n ++ buf := by
  induction places generalizing n buf with
  | zero =>
    obtain rfl : n = 0 := Nat.lt_one_iff.mp hplaces
    rfl
  | succ places ih =>
    rw [fillBuf]
    by_cases hn : 0 < n
    · have hlt : n / base < base ^ places := Nat.div_lt_of_lt_mul (by rwa [Nat.pow_succ'] at hplaces)
      have hmod : ((n : Int) % base).toNat = n % base := by
        rw [← Int.natCast_emod, Int.toNat_natCast]
      rw [if_pos (Int.natCast_pos.mpr hn), hmod, ← Int.natCast_ediv, ih hlt, hdigit _ (Nat.mod_lt _ (Nat.lt_of_succ_lt hbase)),
        significant_eq hbase hn, List.append_assoc, List.singleton_append]
    · obtain rfl : n = 0 := Nat.eq_zero_of_not_pos hn
      rfl

theorem collectDigits_eq (hplaces : n < 10 ^ places) : (collectDigits places n).reverse = significant 10 n := by
  induction places generalizing n with
  | zero =>
    obtain rfl : n = 0 := Nat.lt_one_iff.mp hplaces
    rfl
  | succ places ih =>
    rw [collectDigits]
    by_cases hn : 0 < n
    · have hlt : n / 10 < 10 ^ places := Nat.div_lt_of_lt_mul (by rwa [Nat.pow_succ'] at hplaces)
      rw [if_pos hn, List.reverse_cons, ih hlt, charFrom_eq_digitChar (Nat.mod_lt _ (by decide)), significant_eq (by decide) hn]
    · obtain rfl : n = 0 := Nat.eq_zero_of_not_pos hn
      rfl

/-! ## Numbers -/

theorem natAbs_lt : w.toInt.natAbs < 10 ^ 15 ∧ w.toInt.natAbs < 16 ^ 15 ∧ w.toInt.natAbs < 10 ^ 31 := by
  have hlt := w.toInt_lt
  have hle := w.le_toInt
  omega

/-- The number behind the sign. -/
theorem splitSign_toNat (w : Word) : (splitSign w).2.toNat = w.toInt.natAbs := by
  have hlt := w.isLt
  rw [splitSign]
  split_ifs with hneg
  · have htoNat : (-w).toNat = (2 ^ 32 - w.toNat) % 2 ^ 32 := BitVec.toNat_neg w
    rw [htoNat]
    rw [BitVec.toInt_eq_toNat_cond] at hneg ⊢
    split_ifs at hneg ⊢ <;> omega
  · change w.toNat = w.toInt.natAbs
    rw [BitVec.toInt_eq_toNat_cond] at hneg ⊢
    split_ifs at hneg ⊢ <;> omega

theorem splitSign_toInt (h : w ≠ BitVec.intMin 32) : (splitSign w).2.toInt = w.toInt.natAbs := by
  rw [splitSign]
  split_ifs with hneg
  · rw [BitVec.toInt_neg_of_ne_intMin h]
    omega
  · change w.toInt = w.toInt.natAbs
    omega

theorem int2str_eq (h : w ≠ BitVec.intMin 32) : int2str w = (splitSign w).1 ++ significant 10 w.toInt.natAbs := by
  have hfill : fillBuf 10 (charFrom '0') 15 w.toInt.natAbs [] = significant 10 w.toInt.natAbs ++ [] :=
    fillBuf_eq (by decide) (fun _ => charFrom_eq_digitChar) natAbs_lt.1
  rw [List.append_nil] at hfill
  rw [int2str, ← hfill, ← splitSign_toInt h]

theorem int2hex_eq (h : w ≠ BitVec.intMin 32) :
    int2hex w = (splitSign w).1 ++ ['0', 'x'] ++ significant 16 w.toInt.natAbs := by
  have hfill : fillBuf 16 hexDigit 15 w.toInt.natAbs [] = significant 16 w.toInt.natAbs ++ [] :=
    fillBuf_eq (by decide) (fun _ => hexDigit_eq_digitChar) natAbs_lt.2.1
  rw [List.append_nil] at hfill
  rw [int2hex, ← hfill, ← splitSign_toInt h]

theorem toInt_eq_zero : w.toInt.natAbs = 0 ↔ w = 0 := by
  rw [Int.natAbs_eq_zero, ← BitVec.toInt_inj]
  rfl

/-- `monitor_write_dec_with_color` writes every integer. -/
theorem monitorWriteDec_eq (w : Word) : monitorWriteDec w = decimal w.toInt := by
  rw [monitorWriteDec]
  split_ifs with hzero
  · subst hzero
    rfl
  · have hne : w.toInt.natAbs ≠ 0 := fun h => hzero (toInt_eq_zero.mp h)
    have hcollect := collectDigits_eq (natAbs_lt (w := w)).2.2
    rw [significant, if_neg hne] at hcollect
    dsimp only
    rw [splitSign_toNat, hcollect, decimal, splitSign]
    split_ifs <;> rfl

theorem nibble_eq (w : Word) (k : Nat) : (w >>> (4 * k) &&& 0xF).toNat = w.toNat / 16 ^ k % 16 := by
  have hmask := Nat.and_two_pow_sub_one_eq_mod (w.toNat / 2 ^ (4 * k)) 4
  rw [BitVec.toNat_and, BitVec.toNat_ushiftRight, Nat.shiftRight_eq_div_pow]
  rw [Nat.pow_mul] at hmask ⊢
  exact hmask

/-- The flag tells whether the digits that were written are none. -/
theorem nibbles_eq (w : Word) (k : Nat) :
    (nibbles w k (decide (w.toNat / 16 ^ (k + 1) = 0), significant 16 (w.toNat / 16 ^ (k + 1)))).2 =
      significant 16 (w.toNat / 16) := by
  induction k with
  | zero => rfl
  | succ k ih =>
    have hdiv : w.toNat / 16 ^ (k + 1 + 1) = w.toNat / 16 ^ (k + 1) / 16 := by
      rw [Nat.pow_succ, Nat.div_div_eq_div_mul]
    rw [← ih, nibbles, nibble_eq, hdiv]
    generalize w.toNat / 16 ^ (k + 1) = m
    congr 1
    rcases Nat.eq_zero_or_pos m with rfl | hm
    · rfl
    · have hne : ¬ (m % 16 = 0 ∧ decide (m / 16 = 0) = true) := by
        rw [decide_eq_true_iff]
        omega
      rw [if_neg hne, nibbleChar_eq_digitChar (Nat.mod_lt _ (by decide)), ← significant_eq (by decide) hm,
        decide_eq_false (Nat.ne_of_gt hm)]

/-- `monitor_write_hex_withc_color` writes every word. -/
theorem monitorWriteHex_eq (w : Word) : monitorWriteHex w = ['0', 'x'] ++ Nat.toDigits 16 w.toNat := by
  have hlt := w.isLt
  have htop : w.toNat / 16 ^ (7 + 1) = 0 := Nat.div_eq_of_lt hlt
  have hnibbles := nibbles_eq w 7
  have hlast : (w &&& 0xF).toNat = w.toNat % 16 := by
    have hzero := nibble_eq w 0
    rwa [Nat.mul_zero, BitVec.ushiftRight_zero, Nat.pow_zero, Nat.div_one] at hzero
  rw [htop] at hnibbles
  have hstart : (nibbles w 7 (true, [])).2 = significant 16 (w.toNat / 16) := hnibbles
  rw [monitorWriteHex, hstart, hlast, nibbleChar_eq_digitChar (Nat.mod_lt _ (by decide)), List.append_assoc]
  rcases Nat.eq_zero_or_pos w.toNat with hzero | hpos
  · rw [hzero]
    rfl
  · rw [← significant_eq (by decide) hpos, significant, if_neg (Nat.ne_of_gt hpos)]

/-! ## Directives -/

theorem significant_eq_toDigits : significant base n = Nat.toDigits base n ↔ n ≠ 0 := by
  rw [significant]
  split_ifs with hn
  · exact iff_of_false (fun h => Nat.toDigits_ne_nil h.symm) (not_not.mpr hn)
  · exact iff_of_true rfl hn

theorem decimal_eq (w : Word) : decimal w.toInt = (splitSign w).1 ++ Nat.toDigits 10 w.toInt.natAbs := by
  rw [decimal, splitSign]
  split_ifs <;> rfl

theorem decimal_of_pos (h : 0 < w.toInt) : decimal w.toInt = Nat.toDigits 10 w.toNat ∧ w.toInt.natAbs = w.toNat := by
  have hsign : ¬ w.toInt < 0 := by omega
  have habs : w.toInt.natAbs = w.toNat := by
    rw [← splitSign_toNat, splitSign, if_neg hsign]
  rw [decimal, if_neg hsign, habs]
  exact ⟨rfl, rfl⟩

theorem ne_intMin (h : 0 < w.toInt) : w ≠ BitVec.intMin 32 := by
  rintro rfl
  exact absurd h (by decide)

theorem ne_zero_of_pos (h : 0 < w.toInt) : w ≠ 0 := by
  rintro rfl
  exact absurd h (by decide)

theorem int2str_eq_decimal : int2str w = decimal w.toInt ↔ Printable 'd' w := by
  rw [Printable, if_pos rfl]
  by_cases hmin : w = BitVec.intMin 32
  · subst hmin
    exact iff_of_false (by decide) fun h => h.2 rfl
  · rw [int2str_eq hmin, decimal_eq, List.append_cancel_left_eq, significant_eq_toDigits, Ne, toInt_eq_zero]
    exact (and_iff_left hmin).symm

theorem int2str_eq_toDigits : int2str w = Nat.toDigits 10 w.toNat ↔ 0 < w.toInt := by
  constructor
  · intro heq
    by_contra hpos
    rcases Int.lt_or_eq_of_le (Int.not_lt.mp hpos) with hneg | hzero
    · have hmem : '-' ∈ int2str w := by
        rw [int2str, splitSign, if_pos hneg]
        exact List.mem_cons_self ..
      rw [heq] at hmem
      exact absurd (Nat.isDigit_of_mem_toDigits (by decide) (by decide) hmem) (by decide)
    · obtain rfl := toInt_eq_zero.mp (Int.natAbs_eq_zero.mpr hzero)
      exact absurd heq (by decide)
  · intro hpos
    rw [← (decimal_of_pos hpos).1, int2str_eq_decimal, Printable, if_pos rfl]
    exact ⟨ne_zero_of_pos hpos, ne_intMin hpos⟩

theorem int2hex_eq_toDigits : int2hex w = ['0', 'x'] ++ Nat.toDigits 16 w.toNat ↔ 0 < w.toInt := by
  constructor
  · intro heq
    by_contra hpos
    rcases Int.lt_or_eq_of_le (Int.not_lt.mp hpos) with hneg | hzero
    · rw [int2hex, splitSign, if_pos hneg] at heq
      exact absurd (List.head_eq_of_cons_eq heq) (by decide)
    · obtain rfl := toInt_eq_zero.mp (Int.natAbs_eq_zero.mpr hzero)
      exact absurd heq (by decide)
  · intro hpos
    have hsign : ¬ w.toInt < 0 := by omega
    have hne : w.toInt.natAbs ≠ 0 := fun h => ne_zero_of_pos hpos (toInt_eq_zero.mp h)
    rw [int2hex_eq (ne_intMin hpos), splitSign, if_neg hsign, significant_eq_toDigits.mpr hne, (decimal_of_pos hpos).2]
    rfl

/-- The number writers of the two formatters against the meaning of a directive. -/
theorem number_directive (hd : d = 'd' ∨ d = 'u' ∨ d = 'x') (w : Word) :
    ∃ f g m, sprintfConversion d = some (ofWord f) ∧ monitorConversion d = some (ofWord g) ∧ meaning d = some (ofWord m) ∧
      (f w = m w ↔ Printable d w) ∧ (Printable d w → g w = m w) := by
  rcases hd with rfl | rfl | rfl
  · exact ⟨_, _, _, rfl, rfl, rfl, int2str_eq_decimal, fun _ => monitorWriteDec_eq w⟩
  · refine ⟨_, _, _, rfl, rfl, rfl, int2str_eq_toDigits, fun hpos => ?_⟩
    exact (monitorWriteDec_eq w).trans (decimal_of_pos hpos).1
  · exact ⟨_, _, _, rfl, rfl, rfl, int2hex_eq_toDigits, fun _ => monitorWriteHex_eq w⟩

/-! ## Formats -/

section

variable {conversion : Char → Option Conversion}

theorem turns_char {c : Char} (hc : c ≠ '%') : turns conversion (c :: str) args = (turns conversion str args).map ([c] :: ·) := by
  rw [turns.eq_def]
  exact if_neg hc

theorem turns_word {f : Word → List Char} (hd : conversion d = some (ofWord f)) :
    turns conversion ('%' :: d :: str) (.word w :: args) = (turns conversion str args).map (f w :: ·) := by
  rw [turns.eq_def]
  simp only [hd]
  rfl

theorem turns_str {s : List Char} (hd : conversion d = some verbatim) :
    turns conversion ('%' :: d :: str) (.str s :: args) = (turns conversion str args).map (s :: ·) := by
  rw [turns.eq_def]
  simp only [hd]
  rfl

end

theorem numbers_char {c : Char} (hc : c ≠ '%') : numbers (c :: str) args = numbers str args := by
  rw [numbers.eq_def]
  exact if_neg hc

theorem meaning_matches (h : Matches str args) : ∃ ps, turns meaning str args = some ps := by
  induction h with
  | nil => exact ⟨[], rfl⟩
  | char hc h ih =>
    obtain ⟨ps, hps⟩ := ih
    exact ⟨_, by rw [turns_char hc, hps]; rfl⟩
  | number hd w h ih =>
    obtain ⟨ps, hps⟩ := ih
    obtain ⟨f, g, m, -, -, hm, -, -⟩ := number_directive hd w
    exact ⟨_, by rw [turns_word hm, hps]; rfl⟩
  | string s h ih =>
    obtain ⟨ps, hps⟩ := ih
    exact ⟨_, by rw [turns_str rfl, hps]; rfl⟩

/-- A turn of two formatters that agree on the rest. -/
theorem map_cons_eq {α : Type} {x y : α} {a : Option (List α)} {b : List α} :
    a.map (x :: ·) = (some b).map (y :: ·) ↔ x = y ∧ a = some b := by
  cases a with
  | none => simp
  | some a => simp

/-- `sprintf` renders every directive by what it means if and only if all numbers are printable. -/
theorem sprintf_turns_iff (h : Matches str args) :
    turns sprintfConversion str args = turns meaning str args ↔ ∀ p ∈ numbers str args, Printable p.1 p.2 := by
  induction h with
  | nil => exact iff_of_true rfl nofun
  | char hc h ih =>
    obtain ⟨ps, hps⟩ := meaning_matches h
    rw [turns_char hc, turns_char hc, numbers_char hc, ← ih, hps, map_cons_eq]
    exact and_iff_right rfl
  | @number d str args hd w h ih =>
    obtain ⟨ps, hps⟩ := meaning_matches h
    obtain ⟨f, g, m, hf, -, hm, hiff, -⟩ := number_directive hd w
    have hnumbers : numbers ('%' :: d :: str) (.word w :: args) = (d, w) :: numbers str args := rfl
    rw [turns_word hf, turns_word hm, hnumbers, hps, map_cons_eq, List.forall_mem_cons, ← ih, hps, hiff]
  | @string str args s h ih =>
    obtain ⟨ps, hps⟩ := meaning_matches h
    have hnumbers : numbers ('%' :: 's' :: str) (.str s :: args) = numbers str args := rfl
    rw [turns_str rfl, turns_str rfl, hnumbers, ← ih, hps, map_cons_eq]
    exact and_iff_right rfl

/-- `monitor_printf_args` renders printable numbers by what their directives mean. -/
theorem monitor_turns_eq (h : Matches str args) (hnumbers : ∀ p ∈ numbers str args, Printable p.1 p.2) :
    turns monitorConversion str args = turns meaning str args := by
  induction h with
  | nil => rfl
  | char hc h ih =>
    rw [numbers_char hc] at hnumbers
    rw [turns_char hc, turns_char hc, ih hnumbers]
  | @number d str args hd w h ih =>
    obtain ⟨f, g, m, -, hg, hm, -, heq⟩ := number_directive hd w
    obtain ⟨hw, hrest⟩ := List.forall_mem_cons.mp (hnumbers : ∀ p ∈ (d, w) :: numbers str args, Printable p.1 p.2)
    rw [turns_word hg, turns_word hm, ih hrest, heq hw]
  | string s h ih => rw [turns_str rfl, turns_str rfl, ih hnumbers]

/-- The formatters agree and render what is meant if and only if all numbers are printable. -/
theorem faithful_iff (h : Matches str args) : Faithful str args ↔ ∀ p ∈ numbers str args, Printable p.1 p.2 := by
  constructor
  · rintro ⟨-, hturns, -⟩
    exact (sprintf_turns_iff h).mp hturns
  · intro hnumbers
    have hsprintf := (sprintf_turns_iff h).mpr hnumbers
    have hmonitor := monitor_turns_eq h hnumbers
    refine ⟨?_, hsprintf, hmonitor⟩
    rw [sprintf, monitorPrintfArgs, hsprintf, hmonitor]

theorem number_faithful : Faithful ['%', 'u'] [.word 7] ∧ ¬ Faithful ['%', 'u'] [.word 0] := by
  have hmatches : ∀ w, Matches ['%', 'u'] [.word w] := fun w => .number (by decide) w .nil
  refine ⟨(faithful_iff (hmatches 7)).mpr ?_, fun hfaithful => ?_⟩
  · intro p hp
    obtain rfl := List.mem_singleton.mp hp
    decide
  · have hprintable := (faithful_iff (hmatches 0)).mp hfaithful ('u', 0) (List.mem_singleton.mpr rfl)
    exact absurd hprintable (by decide)

/-- `sprintf` prints nothing for `%d` and 0. -/
theorem zero_not_faithful : ¬ ∀ str args, Matches str args → Faithful str args := by
  intro hall
  obtain ⟨hagree, -⟩ := hall ['%', 'd'] [.word 0] (.number (.inl rfl) 0 .nil)
  have hsprintf : sprintf ['%', 'd'] [.word 0] = some [] := rfl
  have hmonitor : monitorPrintfArgs ['%', 'd'] [.word 0] = some ['0'] := rfl
  rw [hsprintf, hmonitor] at hagree
  cases hagree

end Formatters

end LuckOS
