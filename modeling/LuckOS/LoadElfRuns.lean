import LuckOS.LoadElf

/-!
# Programs that are loaded safely, and completely

The file lies in a buffer of the kernel heap. The loader is confined to the buffer and the
user space exactly if the header table, as far as the loop looks at it, and the segments
stay inside of them. It loads all segments of a well-formed file exactly if no header behind
a null header has data.
-/

namespace LuckOS.Elf

open ByteMemory

variable {m : Memory} {s t : LoadState} {content n i : Nat}

/-- The memories agree on the buffer. -/
def AgreeOn (m m' : Memory) (content n : Nat) : Prop := ∀ a, content ≤ a → a < content + n → m' a = m a

theorem AgreeOn.half {addr : Nat} (h : AgreeOn m s.mem content n) (hhi : content + n ≤ 2 ^ 32) (hge : content ≤ addr % 2 ^ 32)
    (hle : addr % 2 ^ 32 + 2 ≤ content + n) : half s.mem addr = half m addr := by
  refine half_congr fun k hk => ?_
  rw [← Nat.mod_add_mod, Nat.mod_eq_of_lt (by omega)]
  exact h _ (by omega) (by omega)

theorem AgreeOn.word {addr : Nat} (h : AgreeOn m s.mem content n) (hhi : content + n ≤ 2 ^ 32) (hge : content ≤ addr % 2 ^ 32)
    (hle : addr % 2 ^ 32 + 4 ≤ content + n) : word s.mem addr = word m addr := by
  refine word_congr fun k hk => ?_
  rw [← Nat.mod_add_mod, Nat.mod_eq_of_lt (by omega)]
  exact h _ (by omega) (by omega)

theorem headerAddr_succ (m : Memory) (content i : Nat) :
    (headerAddr m content i + phentsize m content) % 2 ^ 32 = headerAddr m content (i + 1) := by
  rw [headerAddr, headerAddr, Nat.mod_add_mod, Nat.succ_mul, Nat.add_assoc]

theorem headerAddr_lt (m : Memory) (content i : Nat) : headerAddr m content i < 2 ^ 32 := Nat.mod_lt _ (by decide)

/-- The header lies in the buffer, and so do its fields and its segment if it is not null. The
target of the segment lies in the user space. -/
structure HeaderConfined (m : Memory) (content n i : Nat) : Prop where
  inside : content ≤ headerAddr m content i ∧ headerAddr m content i + 4 ≤ content + n
  fields : ptype m content i ≠ 0 → headerAddr m content i + 20 ≤ content + n
  segment : ptype m content i ≠ 0 → 0 < filesz m content i → filesz m content i < 2 ^ 31 →
    content ≤ (content + poffset m content i) % 2 ^ 32 ∧
      (content + poffset m content i) % 2 ^ 32 + filesz m content i ≤ content + n ∧
      userStart ≤ vaddr m content i ∧ vaddr m content i + filesz m content i ≤ userEnd

/-- The fields that are read of a header. -/
theorem word_header {k : Nat} (hhi : content + n ≤ 2 ^ 32) (hagree : AgreeOn m s.mem content n)
    (hinside : content ≤ headerAddr m content i) (hk : headerAddr m content i + k + 4 ≤ content + n) :
    word s.mem (headerAddr m content i + k) = word m (headerAddr m content i + k) := by
  have hmod : (headerAddr m content i + k) % 2 ^ 32 = headerAddr m content i + k := Nat.mod_eq_of_lt (by omega)
  refine hagree.word hhi ?_ ?_ <;> rw [hmod] <;> omega

/-- A header that is not null is loaded safely. -/
theorem confined_loadSegment_iff (hlo : userEnd ≤ content) (hhi : content + n ≤ 2 ^ 32)
    (hagree : AgreeOn m s.mem content n) (hs : Confined content n s) (hinside : content ≤ headerAddr m content i) :
    Confined content n (loadSegment content (headerAddr m content i) s) ↔
      headerAddr m content i + 20 ≤ content + n ∧
        (0 < filesz m content i → filesz m content i < 2 ^ 31 →
          content ≤ (content + poffset m content i) % 2 ^ 32 ∧
            (content + poffset m content i) % 2 ^ 32 + filesz m content i ≤ content + n ∧
            userStart ≤ vaddr m content i ∧ vaddr m content i + filesz m content i ≤ userEnd) := by
  have hpos : 0 < content := Nat.lt_of_lt_of_le (by decide) hlo
  have hlt := headerAddr_lt m content i
  rw [loadSegment, confined_memcpy_iff hpos hhi (word_lt ..) (Nat.mod_lt _ (by decide)), confined_reading_iff hpos hhi (by decide),
    confined_reading_iff hpos hhi (by decide), confined_reading_iff hpos hhi (by decide), and_iff_right hs]
  have hfields : (headerAddr m content i + 20 ≤ content + n) ↔
      ((content ≤ (headerAddr m content i + 8) % 2 ^ 32 ∧ (headerAddr m content i + 8) % 2 ^ 32 + 4 ≤ content + n) ∧
        (content ≤ (headerAddr m content i + 4) % 2 ^ 32 ∧ (headerAddr m content i + 4) % 2 ^ 32 + 4 ≤ content + n)) ∧
        content ≤ (headerAddr m content i + 16) % 2 ^ 32 ∧ (headerAddr m content i + 16) % 2 ^ 32 + 4 ≤ content + n := by
    have hend : userEnd = 0xC0000000 := rfl
    omega
  rw [← hfields]
  refine and_congr_right fun hle => ?_
  have hvaddr : word s.mem (headerAddr m content i + 8) = vaddr m content i :=
    word_header hhi hagree hinside (by omega)
  have hoffset : word s.mem (headerAddr m content i + 4) = poffset m content i :=
    word_header hhi hagree hinside (by omega)
  have hfilesz : word s.mem (headerAddr m content i + 16) = filesz m content i :=
    word_header hhi hagree hinside (by omega)
  simp only [LoadState.reading, hvaddr, hoffset, hfilesz]

/-- A confined load does not change the buffer. -/
theorem agreeOn_loadSegment {programHeader : Nat} (hlo : userEnd ≤ content) (hagree : AgreeOn m s.mem content n) (h : Confined content n (loadSegment content programHeader s)) :
    AgreeOn m (loadSegment content programHeader s).mem content n := by
  intro a hge hlt
  refine Eq.trans ?_ (hagree a hge hlt)
  rw [loadSegment, LoadState.memcpy] at h ⊢
  split_ifs at h ⊢
  · refine copied_of_ne fun k hk heq => ?_
    have hstore := (h.stores a) (by
      rw [(copied_log ..).2, heq]
      exact List.mem_append_right _ (List.mem_map.mpr ⟨k, List.mem_range.mpr hk, rfl⟩))
    have hend := hstore.2
    omega
  · rfl

/-- The loop is confined exactly if the headers that it looks at are. -/
theorem confined_loadSegments_iff (hlo : userEnd ≤ content) (hhi : content + n ≤ 2 ^ 32) (h46 : 46 ≤ n) (rounds : Nat)
    (hagree : AgreeOn m s.mem content n) (hrounds : phnum m content ≤ i + rounds) (hs : Confined content n s)
    (hreached : Reached m content i) :
    Confined content n (loadSegments content rounds i (headerAddr m content i) s) ↔
      ∀ j, i ≤ j → j < phnum m content → Reached m content j → HeaderConfined m content n j := by
  have hpos : 0 < content := Nat.lt_of_lt_of_le (by decide) hlo
  induction rounds generalizing i s with
  | zero => exact iff_of_true hs fun j hij hj => absurd hj (by omega)
  | succ rounds ih =>
    have h44 : (content + 44) % 2 ^ 32 = content + 44 := Nat.mod_eq_of_lt (by omega)
    have h42 : (content + 42) % 2 ^ 32 = content + 42 := Nat.mod_eq_of_lt (by omega)
    have hnum : half s.mem (content + 44) = phnum m content :=
      hagree.half hhi (by rw [h44]; omega) (by rw [h44]; omega)
    have hs₁ : Confined content n (s.reading (content + 44) 2) :=
      (confined_reading_iff hpos hhi (by decide)).mpr ⟨hs, by rw [h44]; omega, by rw [h44]; omega⟩
    have hmod : headerAddr m content i % 2 ^ 32 = headerAddr m content i := Nat.mod_eq_of_lt (headerAddr_lt ..)
    have hread : Confined content n ((s.reading (content + 44) 2).reading (headerAddr m content i) 4) ↔
        content ≤ headerAddr m content i ∧ headerAddr m content i + 4 ≤ content + n := by
      rw [confined_reading_iff hpos hhi (by decide), and_iff_right hs₁, hmod]
    rw [loadSegments]
    dsimp only
    change Confined content n (if i < half s.mem (content + 44) then _ else _) ↔ _
    rw [hnum]
    by_cases hi : i < phnum m content
    · rw [if_pos hi]
      by_cases hinside : content ≤ headerAddr m content i ∧ headerAddr m content i + 4 ≤ content + n
      · have hs₂ := hread.mpr hinside
        have htype : word ((s.reading (content + 44) 2).reading (headerAddr m content i) 4).mem (headerAddr m content i) =
            ptype m content i := hagree.word hhi (by rw [hmod]; exact hinside.1) (by rw [hmod]; exact hinside.2)
        rw [htype]
        by_cases hnull : ptype m content i = 0
        · rw [if_pos hnull]
          refine iff_of_true ?_ fun j hij hj hreach => ?_
          · obtain ⟨-, hstores, hreads⟩ := loadSegments_stuck content
              (s := (s.reading (content + 44) 2).reading (headerAddr m content i) 4) (htype.trans hnull) rounds (i + 1)
            refine ⟨fun a ha => ?_, fun a ha => hs₂.stores a (hstores ▸ ha)⟩
            rcases hreads a ha with ha | ha
            · exact hs₂.reads a ha
            · have hagain : Confined content n ((((s.reading (content + 44) 2).reading (headerAddr m content i) 4).reading
                  (content + 44) 2).reading (headerAddr m content i) 4) := by
                rw [confined_reading_iff hpos hhi (by decide), confined_reading_iff hpos hhi (by decide), h44, hmod]
                exact ⟨⟨hs₂, by omega, by omega⟩, hinside⟩
              exact hagain.reads a ha
          · rcases Nat.lt_or_eq_of_le hij with hlt | rfl
            · exact absurd hnull (hreach i hlt)
            · exact ⟨hinside, fun hne => absurd hnull hne, fun hne => absurd hnull hne⟩
        · rw [if_neg hnull]
          have hagree₂ : AgreeOn m ((s.reading (content + 44) 2).reading (headerAddr m content i) 4).mem content n := hagree
          have hload := confined_loadSegment_iff hlo hhi hagree₂ hs₂ hinside.1
          by_cases hsegment : Confined content n
              (loadSegment content (headerAddr m content i) ((s.reading (content + 44) 2).reading (headerAddr m content i) 4))
          · have hagree₃ := agreeOn_loadSegment hlo hagree₂ hsegment
            have hsize : half (loadSegment content (headerAddr m content i)
                ((s.reading (content + 44) 2).reading (headerAddr m content i) 4)).mem (content + 42) = phentsize m content :=
              hagree₃.half hhi (by rw [h42]; omega) (by rw [h42]; omega)
            have hs₄ : Confined content n ((loadSegment content (headerAddr m content i)
                ((s.reading (content + 44) 2).reading (headerAddr m content i) 4)).reading (content + 42) 2) := by
              rw [confined_reading_iff hpos hhi (by decide), h42]
              exact ⟨hsegment, by omega, by omega⟩
            have hreached' : Reached m content (i + 1) := by
              intro j hj
              rcases Nat.lt_or_eq_of_le (Nat.le_of_lt_succ hj) with hlt | rfl
              · exact hreached j hlt
              · exact hnull
            have hrest := ih (i := i + 1) (s := (loadSegment content (headerAddr m content i)
              ((s.reading (content + 44) 2).reading (headerAddr m content i) 4)).reading (content + 42) 2)
              hagree₃ (by omega) hs₄ hreached'
            change Confined content n (loadSegments content rounds (i + 1) ((headerAddr m content i +
              half (loadSegment content (headerAddr m content i) _).mem (content + 42)) % 2 ^ 32) _) ↔ _
            rw [hsize, headerAddr_succ]
            refine hrest.trans ?_
            obtain ⟨hfields, hseg⟩ := hload.mp hsegment
            constructor
            · intro hall j hij hj hreach
              rcases Nat.lt_or_eq_of_le hij with hlt | rfl
              · exact hall j hlt hj hreach
              · exact ⟨hinside, fun _ => hfields, fun _ => hseg⟩
            · exact fun hall j hij hj hreach => hall j (by omega) hj hreach
          · refine iff_of_false (fun hc => hsegment ?_) fun hall => hsegment ?_
            · exact hc.of_extends ((extends_reading ..).trans (extends_loadSegments ..))
            · have hheader := hall i (Nat.le_refl i) hi hreached
              exact hload.mpr ⟨hheader.fields hnull, hheader.segment hnull⟩
      · refine iff_of_false (fun hc => hinside (hread.mp ?_)) fun hall => hinside (hall i (Nat.le_refl i) hi hreached).inside
        split_ifs at hc
        · exact hc.of_extends (extends_loadSegments ..)
        · exact hc.of_extends ((extends_loadSegment ..).trans ((extends_reading ..).trans (extends_loadSegments ..)))
    · rw [if_neg hi]
      exact iff_of_true hs₁ fun j hij hj => absurd hj (by omega)

/-- The state behind the check of the magic number. -/
def checkMagic (content : Nat) (s : LoadState) : LoadState :=
  (((s.reading content 1).reading (content + 1) 1).reading (content + 2) 1).reading (content + 3) 1

/-- The state behind the loop. -/
def loadTable (content : Nat) (s : LoadState) : LoadState :=
  loadSegments content 0x10000 0 (headerAddr s.mem content 0) ((checkMagic content s).reading (content + 28) 4)

theorem loadElf_of_magic (h : HasMagic s.mem content) :
    loadElf content s = (some (word (loadTable content s).mem (content + 24)), (loadTable content s).reading (content + 24) 4) := by
  obtain ⟨h0, h1, h2, h3⟩ := h
  have hheader : headerAddr s.mem content 0 = (content + word s.mem (content + 28)) % 2 ^ 32 := by
    rw [headerAddr, Nat.zero_mul, Nat.add_zero, phoff]
  rw [loadTable, hheader]
  simp only [loadElf, LoadState.reading, h0, h1, h2, h3, ne_eq, not_true, if_false]
  rfl

theorem loadElf_of_not_magic (h : ¬ HasMagic s.mem content) : (loadElf content s).1 = none := by
  simp only [loadElf, LoadState.reading]
  by_cases h0 : s.mem (content % 2 ^ 32) = 0x7F
  · by_cases h1 : s.mem ((content + 1) % 2 ^ 32) = 0x45
    · by_cases h2 : s.mem ((content + 2) % 2 ^ 32) = 0x4C
      · have h3 : s.mem ((content + 3) % 2 ^ 32) ≠ 0x46 := fun h3 => h ⟨h0, h1, h2, h3⟩
        simp only [h0, h1, h2, h3, ne_eq, not_true, not_false_iff, if_false, if_true]
      · simp only [h0, h1, h2, ne_eq, not_true, not_false_iff, if_false, if_true]
    · simp only [h0, h1, ne_eq, not_true, not_false_iff, if_false, if_true]
  · simp only [h0, ne_eq, not_false_iff, if_true]

/-- `load_elf` returns -1, or its loads lie in the buffer and its stores in the user space. -/
def SafeLoad (content n : Nat) (r : Option Nat × LoadState) : Prop := r.1 = none ∨ Confined content n r.2

theorem confined_checkMagic (hlo : 0 < content) (hhi : content + n ≤ 2 ^ 32) (hn : 32 ≤ n) (hs : Confined content n s) :
    Confined content n ((checkMagic content s).reading (content + 28) 4) := by
  rw [checkMagic, confined_reading_iff hlo hhi (by decide), confined_reading_iff hlo hhi (by decide),
    confined_reading_iff hlo hhi (by decide), confined_reading_iff hlo hhi (by decide), confined_reading_iff hlo hhi (by decide)]
  have hmod : ∀ k < 32, (content + k) % 2 ^ 32 = content + k := fun k hk => Nat.mod_eq_of_lt (by omega)
  have h0 := hmod 0 (by omega)
  rw [Nat.add_zero] at h0
  rw [h0, hmod 1 (by omega), hmod 2 (by omega), hmod 3 (by omega), hmod 28 (by omega)]
  exact ⟨⟨⟨⟨⟨hs, by omega, by omega⟩, by omega, by omega⟩, by omega, by omega⟩, by omega, by omega⟩, by omega, by omega⟩

/-- The number of the headers is read. -/
theorem extends_loadTable (content : Nat) (s : LoadState) :
    Extends (((checkMagic content s).reading (content + 28) 4).reading (content + 44) 2) (loadTable content s) := by
  rw [loadTable, loadSegments]
  dsimp only
  split_ifs
  · exact (extends_reading ..).trans (extends_loadSegments ..)
  · exact (extends_reading ..).trans ((extends_loadSegment ..).trans ((extends_reading ..).trans (extends_loadSegments ..)))
  · exact .refl _

/-- The loader is safe on a file exactly if the file does not start with the magic number, or
every header up to the first null header, and its segment, lie where they may. -/
theorem load_elf_safe_iff (m : Memory) (hbuffer : 0 < n → userEnd ≤ content ∧ content + n ≤ 2 ^ 32) :
    SafeLoad content n (loadElf content ⟨m, [], []⟩) ↔ ¬ HasMagic m content ∨
      46 ≤ n ∧ ∀ i < phnum m content, Reached m content i → HeaderConfined m content n i := by
  by_cases hmagic : HasMagic m content
  · rw [or_iff_right (not_not.mpr hmagic), SafeLoad, loadElf_of_magic (s := ⟨m, [], []⟩) hmagic, or_iff_right (by simp)]
    by_cases hn : 46 ≤ n
    · obtain ⟨hlo, hhi⟩ := hbuffer (by omega)
      have hpos : 0 < content := Nat.lt_of_lt_of_le (by decide) hlo
      have hfirst := confined_checkMagic (n := n) (s := ⟨m, [], []⟩) hpos hhi (by omega) ⟨nofun, nofun⟩
      have hagree : AgreeOn m ((checkMagic content ⟨m, [], []⟩).reading (content + 28) 4).mem content n := fun _ _ _ => rfl
      have hloop := confined_loadSegments_iff (i := 0) hlo hhi hn 0x10000 hagree
        (Nat.le_of_lt (Nat.lt_of_lt_of_le (half_lt ..) (by decide))) hfirst nofun
      have h24 : (content + 24) % 2 ^ 32 = content + 24 := Nat.mod_eq_of_lt (by omega)
      rw [confined_reading_iff hpos hhi (by decide), h24, and_iff_left ⟨by omega, by omega⟩, and_iff_right hn, loadTable]
      refine hloop.trans ?_
      simp only [Nat.zero_le, forall_const]
    · refine iff_of_false (fun hc => ?_) fun hcond => hn hcond.1
      have hnum := hc.of_extends ((extends_loadTable ..).trans (extends_reading ..))
      rcases Nat.eq_zero_or_pos n with hzero | hpos
      · have hread := hnum.reads (content % 2 ^ 32) (by simp [checkMagic, LoadState.reading])
        omega
      · obtain ⟨hlo, hhi⟩ := hbuffer hpos
        have hcontent : 0 < content := Nat.lt_of_lt_of_le (by decide) hlo
        have hend : userEnd = 0xC0000000 := rfl
        obtain ⟨-, hge, hle⟩ := (confined_reading_iff hcontent hhi (by decide)).mp hnum
        omega
  · exact iff_of_true (.inl (loadElf_of_not_magic hmagic)) (.inl hmagic)

/-! ## Files in memory -/

section Files

instance : Decidable (Reached m content i) := inferInstanceAs (Decidable (∀ j < i, ptype m content j ≠ 0))

instance : Decidable (HasMagic m content) :=
  inferInstanceAs (Decidable (m (content % 2 ^ 32) = 0x7F ∧ m ((content + 1) % 2 ^ 32) = 0x45 ∧
    m ((content + 2) % 2 ^ 32) = 0x4C ∧ m ((content + 3) % 2 ^ 32) = 0x46))

instance : Decidable (HeaderConfined m content n i) :=
  decidable_of_iff ((content ≤ headerAddr m content i ∧ headerAddr m content i + 4 ≤ content + n) ∧
    (ptype m content i ≠ 0 → headerAddr m content i + 20 ≤ content + n) ∧
    (ptype m content i ≠ 0 → 0 < filesz m content i → filesz m content i < 2 ^ 31 →
      content ≤ (content + poffset m content i) % 2 ^ 32 ∧
        (content + poffset m content i) % 2 ^ 32 + filesz m content i ≤ content + n ∧
        userStart ≤ vaddr m content i ∧ vaddr m content i + filesz m content i ≤ userEnd))
    ⟨fun ⟨inside, fields, segment⟩ => ⟨inside, fields, segment⟩, fun h => ⟨h.inside, h.fields, h.segment⟩⟩

/-- The four bytes of a field. -/
def littleEndian (v : Nat) : List UInt8 := [.ofNat v, .ofNat (v / 2 ^ 8), .ofNat (v / 2 ^ 16), .ofNat (v / 2 ^ 24)]

/-- A file header with the given number of program headers behind it. -/
def fileHeader (phnum : Nat) : List UInt8 :=
  littleEndian 0x464C457F ++ List.replicate 20 0 ++ littleEndian 0x400000 ++ littleEndian 52 ++ List.replicate 10 0 ++
    [32, 0, .ofNat phnum, 0] ++ List.replicate 6 0

def programHeader (type offset vaddr filesz : Nat) : List UInt8 :=
  littleEndian type ++ littleEndian offset ++ littleEndian vaddr ++ littleEndian vaddr ++ littleEndian filesz ++
    littleEndian filesz ++ littleEndian 0 ++ littleEndian 0

/-- The file lies in the buffer, and all other memory is zero. -/
def fileMemory (content : Nat) (file : List UInt8) : Memory := fun a => if content ≤ a then file.getD (a - content) 0 else 0

/-- A segment of one byte at the start of the user space. -/
def userFile : List UInt8 := fileHeader 1 ++ programHeader 1 84 0x400000 1 ++ [7]

/-- A segment of one byte at the start of the kernel. -/
def kernelFile : List UInt8 := fileHeader 1 ++ programHeader 1 84 0xC0000000 1 ++ [7]

/-- A null header stands in front of the header with the segment. -/
def nullFirstFile : List UInt8 := fileHeader 2 ++ programHeader 0 0 0 0 ++ programHeader 1 116 0x400000 1 ++ [7]

/-- A null header stands behind the header with the segment. -/
def nullLastFile : List UInt8 := fileHeader 2 ++ programHeader 1 116 0x400000 1 ++ programHeader 0 0 0 0 ++ [7]

end Files

theorem load_elf_safe_userFile :
    SafeLoad 0xC1000000 85 (loadElf 0xC1000000 ⟨fileMemory 0xC1000000 userFile, [], []⟩) :=
  (load_elf_safe_iff _ fun _ => ⟨by decide, by decide⟩).mpr (.inr ⟨by decide, by decide +kernel⟩)

/-- The segment of the file is stored into the kernel. -/
theorem load_elf_unsafe : ¬ ∀ (m : Memory) (content n : Nat), (0 < n → userEnd ≤ content ∧ content + n ≤ 2 ^ 32) →
    SafeLoad content n (loadElf content ⟨m, [], []⟩) := by
  intro h
  have hloaded : (loadElf 0xC1000000 ⟨fileMemory 0xC1000000 kernelFile, [], []⟩).1 ≠ none := by decide +kernel
  have hstored : 0xC0000000 ∈ (loadElf 0xC1000000 ⟨fileMemory 0xC1000000 kernelFile, [], []⟩).2.stores := by decide +kernel
  rcases h (fileMemory 0xC1000000 kernelFile) 0xC1000000 85 fun _ => ⟨by decide, by decide⟩ with hnone | hconfined
  · exact hloaded hnone
  · exact Nat.lt_irrefl _ (hconfined.stores _ hstored).2

/-! ## What is loaded -/

/-- The addresses that a segment takes up in memory. -/
def InTarget (m : Memory) (content i a : Nat) : Prop :=
  vaddr m content i ≤ a ∧ a < vaddr m content i + max (filesz m content i) (memsz m content i)

/-- A file of `n` bytes with the magic number whose headers and segments lie inside of it, and
whose targets lie in the user space and do not overlap. -/
structure WellFormed (m : Memory) (content n : Nat) : Prop where
  magic : HasMagic m content
  header : 52 ≤ n
  headers : ∀ i < phnum m content, phoff m content + i * phentsize m content + 32 ≤ n
  segments : ∀ i < phnum m content, ptype m content i ≠ 0 → poffset m content i + filesz m content i ≤ n
  user : ∀ i < phnum m content, ptype m content i ≠ 0 → ∀ a, InTarget m content i a → userStart ≤ a ∧ a < userEnd
  apart : ∀ i < phnum m content, ∀ j < phnum m content, ptype m content i ≠ 0 → ptype m content j ≠ 0 → i ≠ j →
    ∀ a, InTarget m content i a → ¬ InTarget m content j a

/-- `load_elf` returns 0 with the entry address, every segment has the bytes of the file, and the
rest of its memory is zero. -/
structure Loaded (m : Memory) (content : Nat) (r : Option Nat × LoadState) : Prop where
  result : r.1 = some (entry m content)
  data : ∀ i < phnum m content, ptype m content i ≠ 0 → ∀ k < filesz m content i,
    r.2.mem (vaddr m content i + k) = m (content + poffset m content i + k)
  bss : ∀ i < phnum m content, ptype m content i ≠ 0 → ∀ k, filesz m content i ≤ k → k < memsz m content i →
    r.2.mem (vaddr m content i + k) = 0

theorem WellFormed.headerAddr_eq (h : WellFormed m content n) (hhi : content + n ≤ 2 ^ 32) (hi : i < phnum m content) :
    headerAddr m content i = content + phoff m content + i * phentsize m content ∧ headerAddr m content i + 32 ≤ content + n := by
  have hle := h.headers i hi
  have heq : headerAddr m content i = content + phoff m content + i * phentsize m content :=
    Nat.mod_eq_of_lt (by omega)
  omega

/-- The user space has the whole range of a segment with data. -/
theorem WellFormed.target (h : WellFormed m content n) (hi : i < phnum m content) (hne : ptype m content i ≠ 0)
    (hpos : 0 < filesz m content i) :
    userStart ≤ vaddr m content i ∧ vaddr m content i + filesz m content i ≤ userEnd := by
  have hfirst := h.user i hi hne (vaddr m content i) ⟨Nat.le_refl _, by omega⟩
  have hlast := h.user i hi hne (vaddr m content i + (filesz m content i - 1)) ⟨by omega, by omega⟩
  omega

theorem WellFormed.confined (h : WellFormed m content n) (hhi : content + n ≤ 2 ^ 32) (hi : i < phnum m content) :
    HeaderConfined m content n i := by
  obtain ⟨heq, hle⟩ := h.headerAddr_eq hhi hi
  refine ⟨by omega, fun _ => by omega, fun hne hpos _ => ?_⟩
  have hsegment := h.segments i hi hne
  have hmod : (content + poffset m content i) % 2 ^ 32 = content + poffset m content i := Nat.mod_eq_of_lt (by omega)
  obtain ⟨hstart, hend⟩ := h.target hi hne hpos
  omega

/-- A segment of a well-formed file is copied, and nothing else changes. -/
theorem WellFormed.loadSegment_mem (h : WellFormed m content n) (hlo : userEnd ≤ content) (hhi : content + n ≤ 2 ^ 32)
    (hagree : AgreeOn m s.mem content n) (hi : i < phnum m content) (hne : ptype m content i ≠ 0) :
    (∀ a, ¬ (vaddr m content i ≤ a ∧ a < vaddr m content i + filesz m content i) →
      (loadSegment content (headerAddr m content i) s).mem a = s.mem a) ∧
    ∀ k < filesz m content i,
      (loadSegment content (headerAddr m content i) s).mem (vaddr m content i + k) = m (content + poffset m content i + k) := by
  obtain ⟨heq, hle⟩ := h.headerAddr_eq hhi hi
  have hsegment := h.segments i hi hne
  have hend : userEnd = 0xC0000000 := rfl
  have hvaddr : word s.mem (headerAddr m content i + 8) = vaddr m content i := word_header hhi hagree (by omega) (by omega)
  have hoffset : word s.mem (headerAddr m content i + 4) = poffset m content i :=
    word_header hhi hagree (by omega) (by omega)
  have hfilesz : word s.mem (headerAddr m content i + 16) = filesz m content i :=
    word_header hhi hagree (by omega) (by omega)
  simp only [loadSegment, LoadState.memcpy, LoadState.reading, hvaddr, hoffset, hfilesz]
  rw [if_pos (by omega)]
  rcases Nat.eq_zero_or_pos (filesz m content i) with hzero | hpos
  · rw [hzero]
    exact ⟨fun _ _ => rfl, fun k hk => absurd hk (Nat.not_lt_zero k)⟩
  · obtain ⟨hstart, htarget⟩ := h.target hi hne hpos
    have hmod : (content + poffset m content i) % 2 ^ 32 = content + poffset m content i := Nat.mod_eq_of_lt (by omega)
    rw [hmod]
    constructor
    · intro a ha
      refine copied_of_ne fun k hk => ?_
      have hk' : (vaddr m content i + k) % 2 ^ 32 = vaddr m content i + k := Nat.mod_eq_of_lt (by omega)
      omega
    · intro k hk
      refine (copied_self (by omega) (by omega) (by omega) hk).trans (hagree _ (by omega) (by omega))

/-- All headers from `i` to `j` are different from null. -/
def ReachedFrom (m : Memory) (content i j : Nat) : Prop := ∀ l, i ≤ l → l ≤ j → ptype m content l ≠ 0

/-- From the memory `m₀` the segments from `i` on have been loaded, up to the first null header. -/
structure TableLoaded (m m₀ : Memory) (content n i : Nat) (t : LoadState) : Prop where
  buffer : AgreeOn m t.mem content n
  others : ∀ a, (∀ j, i ≤ j → j < phnum m content → ReachedFrom m content i j →
    ¬ (vaddr m content j ≤ a ∧ a < vaddr m content j + filesz m content j)) → t.mem a = m₀ a
  data : ∀ j, i ≤ j → j < phnum m content → ReachedFrom m content i j → ∀ k < filesz m content j,
    t.mem (vaddr m content j + k) = m (content + poffset m content j + k)

theorem WellFormed.loadSegments_mem (h : WellFormed m content n) (hlo : userEnd ≤ content) (hhi : content + n ≤ 2 ^ 32)
    (rounds : Nat) (hagree : AgreeOn m s.mem content n) (hrounds : phnum m content ≤ i + rounds) :
    TableLoaded m s.mem content n i (loadSegments content rounds i (headerAddr m content i) s) := by
  have hn := h.header
  induction rounds generalizing i s with
  | zero => exact ⟨hagree, fun _ _ => rfl, fun j hij hj => absurd hj (by omega)⟩
  | succ rounds ih =>
    have h44 : (content + 44) % 2 ^ 32 = content + 44 := Nat.mod_eq_of_lt (by omega)
    have h42 : (content + 42) % 2 ^ 32 = content + 42 := Nat.mod_eq_of_lt (by omega)
    have hnum : half s.mem (content + 44) = phnum m content :=
      hagree.half hhi (by rw [h44]; omega) (by rw [h44]; omega)
    rw [loadSegments]
    dsimp only
    change TableLoaded m s.mem content n i (if i < half s.mem (content + 44) then _ else _)
    rw [hnum]
    by_cases hi : i < phnum m content
    · obtain ⟨heq, hle⟩ := h.headerAddr_eq hhi hi
      have htype : word ((s.reading (content + 44) 2).reading (headerAddr m content i) 4).mem (headerAddr m content i) =
          ptype m content i := word_header (k := 0) hhi hagree (by omega) (by omega)
      rw [if_pos hi, htype]
      by_cases hnull : ptype m content i = 0
      · rw [if_pos hnull]
        obtain ⟨hmem, -, -⟩ := loadSegments_stuck content
          (s := (s.reading (content + 44) 2).reading (headerAddr m content i) 4) (htype.trans hnull) rounds (i + 1)
        constructor
        · rw [hmem]
          exact hagree
        · exact fun a _ => congrFun hmem a
        · exact fun j hij _ hreach => absurd hnull (hreach i (Nat.le_refl i) hij)
      · rw [if_neg hnull]
        have hagree₂ : AgreeOn m ((s.reading (content + 44) 2).reading (headerAddr m content i) 4).mem content n := hagree
        obtain ⟨hothers, hcopied⟩ := h.loadSegment_mem hlo hhi hagree₂ hi hnull
        have htarget := h.target hi hnull
        have hagree₃ : AgreeOn m (loadSegment content (headerAddr m content i)
            ((s.reading (content + 44) 2).reading (headerAddr m content i) 4)).mem content n := fun a hge hlt =>
          (hothers a (by omega)).trans (hagree a hge hlt)
        have hsize : half (loadSegment content (headerAddr m content i)
            ((s.reading (content + 44) 2).reading (headerAddr m content i) 4)).mem (content + 42) = phentsize m content :=
          hagree₃.half hhi (by rw [h42]; omega) (by rw [h42]; omega)
        obtain ⟨hkeep, hrest, hlater⟩ := ih (i := i + 1) (s := (loadSegment content (headerAddr m content i)
          ((s.reading (content + 44) 2).reading (headerAddr m content i) 4)).reading (content + 42) 2) hagree₃ (by omega)
        change TableLoaded m s.mem content n i (loadSegments content rounds (i + 1) ((headerAddr m content i +
          half (loadSegment content (headerAddr m content i) _).mem (content + 42)) % 2 ^ 32) _)
        rw [hsize, headerAddr_succ]
        refine ⟨hkeep, fun a ha => ?_, fun j hij hj hreach k hk => ?_⟩
        · refine (hrest a fun j hij hj hreach => ha j (by omega) hj fun l hil hlj => ?_).trans
            (hothers a (ha i (Nat.le_refl i) hi fun l hil hli => ?_))
          · rcases Nat.lt_or_eq_of_le hil with hlt | rfl
            · exact hreach l hlt hlj
            · exact hnull
          · rw [Nat.le_antisymm hli hil]
            exact hnull
        · rcases Nat.lt_or_eq_of_le hij with hlt | rfl
          · exact hlater j hlt hj (fun l hil hlj => hreach l (by omega) hlj) k hk
          · refine (hrest _ fun j hij hj hreach' hin => ?_).trans (hcopied k hk)
            have hne : ptype m content j ≠ 0 := hreach' j hij (Nat.le_refl j)
            exact h.apart i hi j hj hnull hne (by omega) (vaddr m content i + k) ⟨by omega, by omega⟩ ⟨hin.1, by omega⟩
    · rw [if_neg hi]
      exact ⟨hagree, fun _ _ => rfl, fun j hij hj => absurd hj (by omega)⟩

/-- A well-formed file is loaded as a whole exactly if the segments behind a null header have no
data but zeros. -/
theorem load_elf_loads_iff (hlo : userEnd ≤ content) (hhi : content + n ≤ 2 ^ 32) (hw : WellFormed m content n)
    (hfresh : ∀ a, userStart ≤ a → a < userEnd → m a = 0) :
    Loaded m content (loadElf content ⟨m, [], []⟩) ↔
      ∀ i < phnum m content, ptype m content i ≠ 0 → ¬ Reached m content i →
        ∀ k < filesz m content i, m (content + poffset m content i + k) = 0 := by
  have hagree : AgreeOn m ((checkMagic content ⟨m, [], []⟩).reading (content + 28) 4).mem content n := fun _ _ _ => rfl
  obtain ⟨hkeep, hothers, hcopied⟩ := hw.loadSegments_mem (i := 0) hlo hhi 0x10000 hagree
    (Nat.le_of_lt (Nat.lt_of_lt_of_le (half_lt ..) (by decide)))
  have hn := hw.header
  have hentry : word (loadTable content ⟨m, [], []⟩).mem (content + 24) = entry m content := by
    have h24 : (content + 24) % 2 ^ 32 = content + 24 := Nat.mod_eq_of_lt (by omega)
    exact hkeep.word hhi (by rw [h24]; omega) (by rw [h24]; omega)
  -- An address of a segment that no loaded segment has data for keeps its zero.
  have hzero : ∀ i < phnum m content, ptype m content i ≠ 0 → ∀ k, InTarget m content i (vaddr m content i + k) →
      (Reached m content i → filesz m content i ≤ k) → (loadTable content ⟨m, [], []⟩).mem (vaddr m content i + k) = 0 := by
    intro i hi hne k hin hk
    obtain ⟨hge, hlt⟩ := hw.user i hi hne _ hin
    refine (hothers _ fun j _ hj hreach hdata => ?_).trans (hfresh _ hge hlt)
    by_cases hij : i = j
    · subst hij
      have hle := hk fun l hl => hreach l (Nat.zero_le l) (Nat.le_of_lt hl)
      omega
    · exact hw.apart i hi j hj hne (hreach j (Nat.zero_le j) (Nat.le_refl j)) hij _ hin ⟨hdata.1, by omega⟩
  rw [loadElf_of_magic (s := ⟨m, [], []⟩) hw.magic]
  constructor
  · intro hloaded i hi hne hbehind k hk
    have hdata := hloaded.data i hi hne k hk
    rw [← hdata]
    exact hzero i hi hne k ⟨by omega, by omega⟩ fun hreach => absurd hreach hbehind
  · intro hnodata
    refine ⟨congrArg some hentry, fun i hi hne k hk => ?_, fun i hi hne k hge hlt => ?_⟩
    · by_cases hreach : Reached m content i
      · refine hcopied i (Nat.zero_le i) hi (fun l _ hl => ?_) k hk
        rcases Nat.lt_or_eq_of_le hl with hlt | rfl
        · exact hreach l hlt
        · exact hne
      · refine Eq.trans ?_ (hnodata i hi hne hreach k hk).symm
        exact hzero i hi hne k ⟨by omega, by omega⟩ fun hreach' => absurd hreach' hreach
    · exact hzero i hi hne k ⟨by omega, by omega⟩ fun _ => hge

theorem fileMemory_fresh {file : List UInt8} (hlo : userEnd ≤ content) :
    ∀ a, userStart ≤ a → a < userEnd → fileMemory content file a = 0 := by
  intro a _ hlt
  rw [fileMemory, if_neg (by omega)]

/-- A file with two headers, one of which is null, and one byte of data. -/
theorem wellFormed_of_one {j : Nat} (hmagic : HasMagic m content) (hnum : phnum m content = 2)
    (hoff : phoff m content + phentsize m content + 32 ≤ n) (h52 : 52 ≤ n)
    (hone : ∀ i < 2, ptype m content i ≠ 0 → i = j)
    (hseg : poffset m content j + filesz m content j ≤ n ∧ vaddr m content j = userStart ∧ filesz m content j = 1 ∧
      memsz m content j = 1) : WellFormed m content n := by
  obtain ⟨hinside, hvaddr, hfilesz, hmemsz⟩ := hseg
  have htarget : ∀ a, InTarget m content j a → userStart ≤ a ∧ a < userEnd := by
    rintro a ⟨hge, hlt⟩
    have hstart : userStart = 0x400000 := rfl
    have hend : userEnd = 0xC0000000 := rfl
    omega
  refine ⟨hmagic, h52, fun i hi => ?_, fun i hi hne => ?_, fun i hi hne => ?_, fun i hi k hk hne hne' hik => ?_⟩
  all_goals rw [hnum] at hi
  · have hle : i * phentsize m content ≤ 1 * phentsize m content := Nat.mul_le_mul_right _ (by omega)
    omega
  · rwa [hone i hi hne]
  · rwa [hone i hi hne]
  · rw [hnum] at hk
    exact absurd ((hone i hi hne).trans (hone k hk hne').symm) hik

theorem load_elf_loads_nullLastFile :
    Loaded (fileMemory 0xC1000000 nullLastFile) 0xC1000000
      (loadElf 0xC1000000 ⟨fileMemory 0xC1000000 nullLastFile, [], []⟩) := by
  have hw : WellFormed (fileMemory 0xC1000000 nullLastFile) 0xC1000000 117 :=
    wellFormed_of_one (j := 0) (by decide +kernel) (by decide +kernel) (by decide +kernel) (by decide)
      (by decide +kernel) (by decide +kernel)
  exact (load_elf_loads_iff (by decide) (by decide) hw (fileMemory_fresh (by decide))).mpr (by decide +kernel)

/-- The segment behind the null header is left out. -/
theorem load_elf_skips : ¬ ∀ (m : Memory) (content n : Nat), userEnd ≤ content → content + n ≤ 2 ^ 32 →
    WellFormed m content n → (∀ a, userStart ≤ a → a < userEnd → m a = 0) →
    Loaded m content (loadElf content ⟨m, [], []⟩) := by
  intro h
  have hw : WellFormed (fileMemory 0xC1000000 nullFirstFile) 0xC1000000 117 :=
    wellFormed_of_one (j := 1) (by decide +kernel) (by decide +kernel) (by decide +kernel) (by decide)
      (by decide +kernel) (by decide +kernel)
  have hloaded := h _ 0xC1000000 117 (by decide) (by decide) hw (fileMemory_fresh (by decide))
  have hdata := hloaded.data 1 (by decide +kernel) (by decide +kernel) 0 (by decide +kernel)
  revert hdata
  decide +kernel

end LuckOS.Elf
