import LuckOS.ByteMemory

/-!
# What the frames of a memory hold

A memory is cut into frames of 4096 bytes. A frame is read as entries, which are its words behind a
decoding, or as bytes. A store changes one frame and leaves the others as they are.
-/

namespace LuckOS.FrameContents

open ByteMemory

variable {ε : Type}

/-- The words of a frame, decoded. -/
def EntriesIn (decode : Nat → ε) (m : Memory) (f : Nat) (e : Nat → ε) : Prop :=
  ∀ i < 1024, decode (read32 m (f * 4096 + 4 * i)) = e i

def BytesIn (m : Memory) (f : Nat) (b : Nat → UInt8) : Prop := ∀ o < 4096, m (f * 4096 + o) = b o

/-- The memories differ in one frame only. -/
def SameBut (f : Nat) (m m' : Memory) : Prop := ∀ x, x / 4096 ≠ f → m' x = m x

variable {decode : Nat → ε} {m m' m'' : Memory} {e e' : Nat → ε} {b : Nat → UInt8} {f g i w : Nat}

theorem SameBut.refl (f : Nat) (m : Memory) : SameBut f m m := fun _ _ => rfl

theorem SameBut.trans (h : SameBut f m m') (h' : SameBut f m' m'') : SameBut f m m'' :=
  fun x hx => (h' x hx).trans (h x hx)

theorem SameBut.read32 (h : SameBut f m m') (hne : g ≠ f) (hi : i < 1024) :
    read32 m' (g * 4096 + 4 * i) = read32 m (g * 4096 + 4 * i) :=
  read32_congr fun x _ _ => h x (by omega)

theorem sameBut_write32 (hi : i < 1024) : SameBut f m (write32 m (f * 4096 + 4 * i) w) :=
  fun _ _ => write32_of_ne (by omega)

theorem sameBut_write8 {o : Nat} {v : UInt8} (ho : o < 4096) : SameBut f m (write8 m (f * 4096 + o) v) :=
  fun _ _ => write8_of_ne (by omega)

theorem EntriesIn.congr (h : EntriesIn decode m g e) (hsame : SameBut f m m') (hne : g ≠ f) :
    EntriesIn decode m' g e := by
  intro i hi
  rw [hsame.read32 hne hi]
  exact h i hi

theorem EntriesIn.of_eq (h : EntriesIn decode m g e) (heq : ∀ i < 1024, e' i = e i) : EntriesIn decode m g e' :=
  fun i hi => (h i hi).trans (heq i hi).symm

theorem BytesIn.congr (h : BytesIn m g b) (hsame : SameBut f m m') (hne : g ≠ f) : BytesIn m' g b :=
  fun o ho => (hsame _ (by omega)).trans (h o ho)

/-- One entry is written. -/
theorem EntriesIn.write (h : EntriesIn decode m f e) (hw : w < 2 ^ 32)
    (heq : ∀ j < 1024, e' j = if j = i then decode w else e j) :
    EntriesIn decode (write32 m (f * 4096 + 4 * i) w) f e' := by
  intro j hj
  rw [heq j hj]
  split_ifs with hij
  · rw [hij, read32_write32 hw]
  · rw [read32_write32_of_ne (by omega)]
    exact h j hj

/-- One byte is written. -/
theorem BytesIn.write {o : Nat} {v : UInt8} {b' : Nat → UInt8} (h : BytesIn m f b)
    (heq : ∀ j < 4096, b' j = if j = o then v else b j) : BytesIn (write8 m (f * 4096 + o) v) f b' := by
  intro j hj
  rw [heq j hj]
  split_ifs with hij
  · rw [hij]
    exact if_pos rfl
  · rw [write8_of_ne (by omega)]
    exact h j hj

/-- The word of four bytes of a frame. -/
theorem read32_of_bytes {v : Nat → UInt8} (h : BytesIn m f v) (hi : i < 1024) : read32 m (f * 4096 + 4 * i) =
    (v (4 * i)).toNat + 2 ^ 8 * (v (4 * i + 1)).toNat + 2 ^ 16 * (v (4 * i + 2)).toNat +
      2 ^ 24 * (v (4 * i + 3)).toNat := by
  have h₁ := h (4 * i + 1) (by omega)
  have h₂ := h (4 * i + 2) (by omega)
  have h₃ := h (4 * i + 3) (by omega)
  rw [← Nat.add_assoc] at h₁ h₂ h₃
  rw [ByteMemory.read32, h (4 * i) (by omega), h₁, h₂, h₃]

/-- A frame of zeros holds entries that are zero. -/
theorem BytesIn.entries_zero (h : BytesIn m f fun _ => 0) : EntriesIn decode m f fun _ => decode 0 :=
  fun _ hi => congrArg decode (read32_of_bytes h hi)

/-- A frame with the bytes of another one holds the same entries. -/
theorem EntriesIn.copy (h : EntriesIn decode m g e) (hcopy : BytesIn m' f fun o => m (g * 4096 + o)) :
    EntriesIn decode m' f e := by
  intro i hi
  rw [read32_of_bytes hcopy hi, ← read32_of_bytes (fun _ _ => rfl) hi]
  exact h i hi

end LuckOS.FrameContents
