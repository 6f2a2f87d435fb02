import MosaOS.Bmp

/-!
# The two orientations of a picture (`kernel/bmp.cpp`)

The rows of a picture file go up, or down where `bcHeight` is negative. The second branch of `getColor`
adds 1 to the index, so of a file whose rows go down it reads the next pixel, and past the last one for
the last one; `getColor_orientations_iff` says at which pixels two files of one picture agree all the
same.
-/

namespace MosaOS
open ByteMem

namespace BitMapImage

/-- The index that `getColor` computes. -/
def colorIndex (m : Memory) (bmp : BitMapImage) (x y : BitVec 32) : BitVec 32 :=
  let bytes : BitVec 32 := (bcBitCount m bmp.info).setWidth 32 / 8
  if !bmp.isAscend then (bmp.width * (bmp.height - y - 1) + x) * bytes
  else (bmp.width * y + x + 1) * bytes

/-- The bytes of `image` that `getColor` reads. -/
def colorAddrs (m : Memory) (bmp : BitMapImage) (x y : BitVec 32) : List SizeT :=
  [0, 1, 2].map fun j => bmp.image + (colorIndex m bmp x y + BitVec.ofNat 32 j).signExtend 64

theorem getColor_eq (m : Memory) (bmp : BitMapImage) (x y : BitVec 32) : getColor m bmp x y =
    ⟨m (bmp.image + (colorIndex m bmp x y + BitVec.ofNat 32 2).signExtend 64),
      m (bmp.image + (colorIndex m bmp x y + BitVec.ofNat 32 1).signExtend 64),
      m (bmp.image + (colorIndex m bmp x y).signExtend 64)⟩ := rfl

end BitMapImage

open BitMapImage

/-- The bytes of `pixels` pixels of 32 bits, from `bfOffBits` on. -/
def pixelArray (m : Memory) (file : SizeT) (pixels : ℕ) : Set SizeT :=
  range (file + (bfOffBits m file).setWidth 64) (4 * pixels)

/-- The picture `pic` of `w` by `h` pixels of 32 bits stands at `file`; its rows go down where `down`
is set. -/
structure Encodes (down : Bool) (pic : ℕ → ℕ → Color) (w h : ℕ) (m : Memory) (file : SizeT) : Prop where
  bmp : BmpFile (BitVec.ofNat 32 w) (if down then -BitVec.ofNat 32 h else BitVec.ofNat 32 h) 32 m file
  pixels : ∀ x < w, ∀ y < h, storedPixel m file (if down then y else h - 1 - y) x = pic x y

/-- At `(x, y)` the files at `f₁` and `f₂` give the same colour, both from their own pixels. -/
structure AgreeAt (w h : ℕ) (m₁ : Memory) (f₁ : SizeT) (m₂ : Memory) (f₂ : SizeT) (x y : ℕ) : Prop where
  color : getColor m₁ (ofFile m₁ f₁) (BitVec.ofNat 32 x) (BitVec.ofNat 32 y) =
    getColor m₂ (ofFile m₂ f₂) (BitVec.ofNat 32 x) (BitVec.ofNat 32 y)
  inside₁ : ∀ a ∈ colorAddrs m₁ (ofFile m₁ f₁) (BitVec.ofNat 32 x) (BitVec.ofNat 32 y),
    a ∈ pixelArray m₁ f₁ (w * h)
  inside₂ : ∀ a ∈ colorAddrs m₂ (ofFile m₂ f₂) (BitVec.ofNat 32 x) (BitVec.ofNat 32 y),
    a ∈ pixelArray m₂ f₂ (w * h)

variable {m : Memory} {file : SizeT} {bmp : BitMapImage} {x y : BitVec 32} {w h k : ℕ}
  {pic : ℕ → ℕ → Color}

/-! ### The pixel at an index -/

section
variable (himage : bmp.image = file + (bfOffBits m file).setWidth 64)
  (hindex : (colorIndex m bmp x y).toNat = 4 * k) (hk : 4 * k + 2 < 2 ^ 31)
include himage hindex hk

theorem colorAddr_eq {j : ℕ} (hj : j ≤ 2) :
    bmp.image + (colorIndex m bmp x y + BitVec.ofNat 32 j).signExtend 64 =
      file + (bfOffBits m file).setWidth 64 + BitVec.ofNat 64 (4 * k + j) := by
  rw [himage, image_add file _ hindex j (by omega), ← BitVec.ofNat_toNat 64 (bfOffBits m file), add_ofNat,
    add_ofNat, Nat.add_assoc]

theorem getColor_at : getColor m bmp x y =
    pixelAt m (file + BitVec.ofNat 64 ((bfOffBits m file).toNat + 4 * k)) := by
  have hread : ∀ j ≤ 2, m (bmp.image + (colorIndex m bmp x y + BitVec.ofNat 32 j).signExtend 64) =
      m (file + BitVec.ofNat 64 ((bfOffBits m file).toNat + 4 * k + j)) := fun j hj => by
    rw [colorAddr_eq himage hindex hk hj, ← BitVec.ofNat_toNat 64 (bfOffBits m file), add_ofNat,
      Nat.add_assoc]
  have h0 := hread 0 (by decide)
  rw [BitVec.add_zero] at h0
  rw [getColor_eq, pixelAt_add, hread 2 le_rfl, hread 1 (by decide), h0]
  rfl

theorem colorAddrs_iff (n : ℕ) :
    (∀ a ∈ colorAddrs m bmp x y, a ∈ pixelArray m file n) ↔ k < n := by
  have hmem : ∀ j ≤ 2, bmp.image + (colorIndex m bmp x y + BitVec.ofNat 32 j).signExtend 64 ∈
      pixelArray m file n ↔ 4 * k + j < 4 * n := fun j hj => by
    rw [colorAddr_eq himage hindex hk hj]
    exact add_mem_range (by omega)
  unfold colorAddrs
  rw [List.forall_mem_map]
  simp only [List.forall_mem_cons, List.not_mem_nil, false_imp_iff, implies_true, and_true,
    hmem 0 (by omega), hmem 1 (by omega), hmem 2 (by omega)]
  omega

end

theorem storedPixel_32 {width height : BitVec 32} (hfile : BmpFile width height 32 m file)
    (row col : ℕ) : storedPixel m file row col =
      pixelAt m (file + BitVec.ofNat 64 ((bfOffBits m file).toNat + 4 * (width.toNat * row + col))) := by
  have hbytes : (32 : BitVec 16).toNat = 8 * 4 := rfl
  have hoffset : row * rowSize width.toNat (32 : BitVec 16).toNat + col * 4 =
      4 * (width.toNat * row + col) := by
    rw [rowSize_of_dvd hbytes (Nat.dvd_mul_left 4 _)]
    ring
  rw [storedPixel_eq hfile hbytes, hoffset]

/-! ### The indices of the two branches -/

theorem pixel_le {X Y : ℕ} (hX : X < w) (hY : Y < h) : w * Y + X + 1 ≤ w * h := by
  calc w * Y + X + 1 ≤ w * Y + w := by omega
    _ = w * (Y + 1) := by ring
    _ ≤ w * h := Nat.mul_le_mul_left _ hY

section
variable (hsize : 4 * (w * h) < 2 ^ 31) {X Y : ℕ} (hX : X < w) (hY : Y < h)
include hsize hX hY

theorem toNat_size : (BitVec.ofNat 32 w).toNat = w ∧ (BitVec.ofNat 32 h).toNat = h ∧
    (BitVec.ofNat 32 X).toNat = X ∧ (BitVec.ofNat 32 Y).toNat = Y ∧ h < 2 ^ 31 := by
  have hw : w ≤ w * h := Nat.le_mul_of_pos_right _ (by omega)
  have hh : h ≤ w * h := Nat.le_mul_of_pos_left _ (by omega)
  exact ⟨toNat_ofNat_of_lt (by omega), toNat_ofNat_of_lt (by omega), toNat_ofNat_of_lt (by omega),
    toNat_ofNat_of_lt (by omega), by omega⟩

theorem colorIndex_up (hfile : BmpFile (BitVec.ofNat 32 w) (BitVec.ofNat 32 h) 32 m file) :
    (colorIndex m (ofFile m file) (BitVec.ofNat 32 X) (BitVec.ofNat 32 Y)).toNat =
      4 * (w * (h - 1 - Y) + X) := by
  obtain ⟨hw, hh, hx, hy, hlt⟩ := toNat_size hsize hX hY
  have hrow := pixel_le hX (show h - 1 - Y < h by omega)
  have hpos : (BitVec.ofNat 32 h).slt 0 = false := by
    rw [slt_zero, hh, decide_eq_false_iff_not]
    omega
  have hbelow : BitVec.ofNat 32 Y < BitVec.ofNat 32 h := by
    rwa [BitVec.lt_def, hh, hy]
  have hbytes : (32 : BitVec 16).toNat / 8 = 4 := rfl
  simp only [colorIndex, ofFile, hfile.width, hfile.height, hfile.bitCount, hpos, Bool.not_false,
    if_true, Bool.false_eq_true, if_false]
  rw [toNat_index_bottomUp hbelow hbytes (by rw [hw, hh, hx, hy]; omega), hw, hh, hx, hy, Nat.mul_comm]

theorem colorIndex_down (hfile : BmpFile (BitVec.ofNat 32 w) (-BitVec.ofNat 32 h) 32 m file) :
    (colorIndex m (ofFile m file) (BitVec.ofNat 32 X) (BitVec.ofNat 32 Y)).toNat =
      4 * (w * Y + X + 1) := by
  obtain ⟨hw, hh, hx, hy, hlt⟩ := toNat_size hsize hX hY
  have hnext := pixel_le hX hY
  have hneg : (-BitVec.ofNat 32 h).slt 0 = true := by
    rw [slt_zero, BitVec.toNat_neg, hh, decide_eq_true_iff]
    omega
  have hbytes : ((((32 : BitVec 16).setWidth 32) : BitVec 32) / 8).toNat = 4 := rfl
  simp only [colorIndex, ofFile, hfile.width, hfile.height, hfile.bitCount, hneg, Bool.not_true,
    Bool.false_eq_true, if_false]
  rw [BitVec.toNat_mul, BitVec.toNat_add, BitVec.toNat_add, BitVec.toNat_mul, hbytes, hw, hx, hy,
    show (1 : BitVec 32).toNat = 1 from rfl]
  omega

end

/-! ### Two files of one picture -/

/-- The pixel after `(x, y)`, by rows. -/
def nextPixel (w x y : ℕ) : ℕ × ℕ := if x + 1 < w then (x + 1, y) else (0, y + 1)

theorem nextPixel_index {X : ℕ} (hX : X < w) (Y : ℕ) :
    w * (nextPixel w X Y).2 + (nextPixel w X Y).1 = w * Y + X + 1 := by
  unfold nextPixel
  split
  · rfl
  · obtain rfl : w = X + 1 := by omega
    show (X + 1) * (Y + 1) + 0 = _
    ring

theorem nextPixel_fst_lt (hw : 0 < w) (X Y : ℕ) : (nextPixel w X Y).1 < w := by
  unfold nextPixel
  split
  · assumption
  · exact hw

theorem nextPixel_lt_iff {X Y : ℕ} (hX : X < w) : w * Y + X + 1 < w * h ↔ (nextPixel w X Y).2 < h := by
  have hw : 0 < w := by omega
  have hfst := nextPixel_fst_lt hw X Y
  rw [← nextPixel_index hX Y]
  constructor
  · intro hlt
    exact Nat.lt_of_mul_lt_mul_left (by omega : w * (nextPixel w X Y).2 < w * h)
  · intro hlt
    have := pixel_le hfst hlt
    omega

section
variable (hsize : 4 * (w * h) < 2 ^ 31) {X Y : ℕ} (hX : X < w) (hY : Y < h)
include hsize hX hY

/-- Of the file whose rows go up, `getColor` reads the pixel it is asked for. -/
theorem getColor_up (up : Encodes false pic w h m file) :
    getColor m (ofFile m file) (BitVec.ofNat 32 X) (BitVec.ofNat 32 Y) = pic X Y ∧
      ∀ a ∈ colorAddrs m (ofFile m file) (BitVec.ofNat 32 X) (BitVec.ofNat 32 Y),
        a ∈ pixelArray m file (w * h) := by
  have hrow := pixel_le hX (show h - 1 - Y < h by omega)
  have hindex := colorIndex_up hsize hX hY up.bmp
  refine ⟨?_, (colorAddrs_iff rfl hindex (by omega) _).2 (by omega)⟩
  rw [getColor_at rfl hindex (by omega), ← up.pixels X hX Y hY]
  have hstored := storedPixel_32 up.bmp (h - 1 - Y) X
  rw [(toNat_size hsize hX hY).1] at hstored
  exact hstored.symm

/-- Of the file whose rows go down, it reads the next one. -/
theorem getColor_down (down : Encodes true pic w h m file) :
    getColor m (ofFile m file) (BitVec.ofNat 32 X) (BitVec.ofNat 32 Y) =
        storedPixel m file (nextPixel w X Y).2 (nextPixel w X Y).1 ∧
      ((∀ a ∈ colorAddrs m (ofFile m file) (BitVec.ofNat 32 X) (BitVec.ofNat 32 Y),
        a ∈ pixelArray m file (w * h)) ↔ (nextPixel w X Y).2 < h) := by
  have hnext := pixel_le hX hY
  have hindex := colorIndex_down hsize hX hY down.bmp
  rw [colorAddrs_iff rfl hindex (by omega), nextPixel_lt_iff hX, getColor_at rfl hindex (by omega),
    storedPixel_32 down.bmp, (toNat_size hsize hX hY).1, nextPixel_index hX]
  exact ⟨rfl, Iff.rfl⟩

end

/-- Two files of a picture agree at the pixels whose next one has their colour, and so never at the
last one. -/
theorem getColor_orientations_iff {m₁ m₂ : Memory} {f₁ f₂ : SizeT} (hw : 1 ≤ w) (hh : 1 ≤ h)
    (hsize : 4 * w * h < 2 ^ 31) (up : Encodes false pic w h m₁ f₁) (down : Encodes true pic w h m₂ f₂) :
    (∀ x < w, ∀ y < h, AgreeAt w h m₁ f₁ m₂ f₂ x y ↔
      (nextPixel w x y).2 < h ∧ pic (nextPixel w x y).1 (nextPixel w x y).2 = pic x y) ∧
    ¬ ∀ x < w, ∀ y < h, AgreeAt w h m₁ f₁ m₂ f₂ x y := by
  rw [Nat.mul_assoc] at hsize
  have hagree : ∀ x < w, ∀ y < h, AgreeAt w h m₁ f₁ m₂ f₂ x y ↔
      (nextPixel w x y).2 < h ∧ pic (nextPixel w x y).1 (nextPixel w x y).2 = pic x y := by
    intro x hx y hy
    obtain ⟨hup, hinside⟩ := getColor_up hsize hx hy up
    obtain ⟨hdown, hinside_iff⟩ := getColor_down hsize hx hy down
    have hstored : (nextPixel w x y).2 < h → storedPixel m₂ f₂ (nextPixel w x y).2 (nextPixel w x y).1 =
        pic (nextPixel w x y).1 (nextPixel w x y).2 :=
      fun hlt => down.pixels _ (nextPixel_fst_lt hw x y) _ hlt
    constructor
    · rintro ⟨hcolor, -, hinside₂⟩
      have hlt := hinside_iff.1 hinside₂
      rw [hup, hdown, hstored hlt] at hcolor
      exact ⟨hlt, hcolor.symm⟩
    · rintro ⟨hlt, hsame⟩
      refine ⟨?_, hinside, hinside_iff.2 hlt⟩
      rw [hup, hdown, hstored hlt, hsame]
  refine ⟨hagree, fun hall => ?_⟩
  obtain ⟨hlt, -⟩ := (hagree (w - 1) (by omega) (h - 1) (by omega)).1 (hall _ (by omega) _ (by omega))
  rw [nextPixel, if_neg (by omega)] at hlt
  simp only at hlt
  omega

theorem getColor_orientations_iff_black :
    AgreeAt 2 1 (oneByteFile 2 1 32 8) 0 (oneByteFile 2 (2 ^ 32 - 1) 32 8) 0 0 0 ∧
      ¬ AgreeAt 2 1 (oneByteFile 2 1 32 8) 0 (oneByteFile 2 (2 ^ 32 - 1) 32 8) 0 1 0 := by
  have up : Encodes false (fun _ _ => ⟨0, 0, 0⟩) 2 1 (oneByteFile 2 1 32 8) 0 :=
    ⟨bmpFile_oneByteFile 2 1 32 8, by decide⟩
  have down : Encodes true (fun _ _ => ⟨0, 0, 0⟩) 2 1 (oneByteFile 2 (2 ^ 32 - 1) 32 8) 0 :=
    ⟨bmpFile_oneByteFile 2 (-1) 32 8, by decide⟩
  have hagree := (getColor_orientations_iff (by decide) (by decide) (by decide) up down).1
  refine ⟨(hagree 0 (by decide) 0 (by decide)).2 (by decide), fun h => ?_⟩
  exact absurd ((hagree 1 (by decide) 0 (by decide)).1 h).1 (by decide)

/-- A picture of one pixel: of the file whose rows go down, `getColor` reads the bytes behind it. -/
theorem getColor_reads_behind :
    Encodes false (fun _ _ => ⟨0, 0, 1⟩) 1 1 (oneByteFile 1 1 32 0) 0 ∧
      Encodes true (fun _ _ => ⟨0, 0, 1⟩) 1 1 (oneByteFile 1 (2 ^ 32 - 1) 32 0) 0 ∧
      getColor (oneByteFile 1 1 32 0) (ofFile (oneByteFile 1 1 32 0) 0) 0 0 = ⟨0, 0, 1⟩ ∧
      getColor (oneByteFile 1 (2 ^ 32 - 1) 32 0) (ofFile (oneByteFile 1 (2 ^ 32 - 1) 32 0) 0) 0 0 =
        ⟨0, 0, 0⟩ ∧
      58 ∈ colorAddrs (oneByteFile 1 (2 ^ 32 - 1) 32 0) (ofFile (oneByteFile 1 (2 ^ 32 - 1) 32 0) 0) 0 0 ∧
      58 ∉ pixelArray (oneByteFile 1 (2 ^ 32 - 1) 32 0) 0 1 := by
  refine ⟨⟨bmpFile_oneByteFile 1 1 32 0, by decide⟩, ⟨bmpFile_oneByteFile 1 (-1) 32 0, by decide⟩,
    by decide, by decide, by decide, ?_⟩
  rw [pixelArray, mem_range]
  decide

end MosaOS
