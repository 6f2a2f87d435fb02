import MosaOS.ScreenManager

/-!
# What `KernelMain` draws (`kernel/kernel.cpp`)

The indices of the pixels that `KernelMain` writes through the back buffer, whose size is fixed while the
mode and the picture are not. `kernelDraw_inBackFb_iff` says for which modes and pictures they stay in it.
-/

namespace MosaOS
open ByteMem Layer

/-- The entries of `back_fb`. -/
def kBackFbEntries : ℕ := 2116800

section
variable {σ : Type} (put : BitVec 32 → BitVec 32 → Color → σ → Option σ)

/-- The loops that make the whole screen white. -/
def fillScreen (frame : Screen) (s : σ) : Option σ :=
  (List.range frame.xAxis.toNat).foldlM (fun s i => (List.range frame.yAxis.toNat).foldlM (fun s j =>
    put (BitVec.ofNat 32 i) (BitVec.ofNat 32 j) ⟨0xff, 0xff, 0xff⟩ s) s) s

/-- The drawing of `KernelMain`, but for the lines of text. -/
def kernelDraw (frame : Screen) (m : Memory) (bmp : SizeT) (s : σ) : Option σ := do
  let s ← fillScreen put frame s
  let s ← Screen.writeSquare put 100 100 200 200 ⟨0, 0xff, 0⟩ s
  let s ← Screen.writeSquare put 150 150 170 230 ⟨0, 0, 0xff⟩ s
  Screen.printBmp put 200 200 m (.ofFile m bmp) s

end

/-- How many bytes `copyScreen` reads. -/
def copiedBytes (dst src : Screen) : ℕ := if dst.fbSize ≠ src.fbSize then 0 else dst.fbSize.toNat

theorem copyScreen_eq (dst src : Screen) (m : Memory) :
    copyScreen dst src m = copyMem m dst.fb src.fb (copiedBytes dst src) := by
  unfold copyScreen copiedBytes
  split
  · rfl
  · rfl

/-! ### Indices -/

/-- A drawing function that only notes the indices. -/
def note (scr : Screen) (x y : BitVec 32) (_ : Color) (t : List (BitVec 32)) :
    Option (List (BitVec 32)) := some (t ++ [scr.index x y])

def fillPixels (frame : Screen) : List Pixel :=
  (List.range frame.xAxis.toNat).flatMap fun i => (List.range frame.yAxis.toNat).map fun j =>
    ⟨BitVec.ofNat 32 i, BitVec.ofNat 32 j, ⟨0xff, 0xff, 0xff⟩⟩

def kernelPixels (frame : Screen) (m : Memory) (bmp : SizeT) : List Pixel :=
  fillPixels frame ++ squarePixels 100 100 200 200 ⟨0, 0xff, 0⟩ ++
    squarePixels 150 150 170 230 ⟨0, 0, 0xff⟩ ++ bmpPixels 200 200 m (.ofFile m bmp)

variable {σ : Type} {put : BitVec 32 → BitVec 32 → Color → σ → Option σ} {s : σ}
  {scr frame : Screen} {m : Memory} {bmp : SizeT} {x y : BitVec 32}

theorem fillScreen_eq : fillScreen put frame s =
    (fillPixels frame).foldlM (fun s p => put p.x p.y p.color s) s := by
  unfold fillScreen fillPixels
  rw [Run.flatMap]
  refine Run.congr fun s i _ => ?_
  rw [List.foldlM_map]

theorem kernelDraw_eq : kernelDraw put frame m bmp s =
    (kernelPixels frame m bmp).foldlM (fun s p => put p.x p.y p.color s) s := by
  have hgreen : ∀ s, Screen.writeSquare put 100 100 200 200 ⟨0, 0xff, 0⟩ s =
      (squarePixels 100 100 200 200 ⟨0, 0xff, 0⟩).foldlM (fun s p => put p.x p.y p.color s) s :=
    fun s => DrawCall.writeSquare_eq fun _ => ⟨by decide, fun _ => by decide⟩
  have hblue : ∀ s, Screen.writeSquare put 150 150 170 230 ⟨0, 0, 0xff⟩ s =
      (squarePixels 150 150 170 230 ⟨0, 0, 0xff⟩).foldlM (fun s p => put p.x p.y p.color s) s :=
    fun s => DrawCall.writeSquare_eq fun _ => ⟨by decide, fun _ => by decide⟩
  unfold kernelDraw kernelPixels
  simp only [List.foldlM_append, fillScreen_eq, hgreen, hblue, DrawCall.printBmp_eq, bind_assoc]

theorem note_run (ps : List Pixel) (t : List (BitVec 32)) :
    ps.foldlM (fun t p => note scr p.x p.y p.color t) t =
      some (t ++ ps.map fun p => scr.index p.x p.y) := by
  induction ps generalizing t with
  | nil => simp
  | cons p ps ih =>
    rw [List.foldlM_cons]
    show (ps.foldlM _ (t ++ [scr.index p.x p.y])) = _
    rw [ih, List.map_cons, List.append_assoc, List.singleton_append]

theorem toNat_index_mod :
    (scr.index x y).toNat = (y.toNat * scr.xAxis.toNat + x.toNat) % 2 ^ 32 := by
  rw [Screen.index, BitVec.toNat_add, BitVec.toNat_mul, Nat.mod_add_mod]

/-- A value that grows by steps too small to jump over what lies between `n` and `2^32` does not wrap
before it reaches `n`. -/
theorem lt_of_mod_lt {f : ℕ → ℕ} {n d k : ℕ} (h0 : f 0 < n) (hstep : ∀ i, f (i + 1) ≤ f i + d)
    (hroom : n + d ≤ 2 ^ 32) (hmod : ∀ i < k, f i % 2 ^ 32 < n) : ∀ i < k, f i < n := by
  intro i
  induction i with
  | zero => exact fun _ => h0
  | succ i ih =>
    intro hi
    have hprev := ih (by omega)
    have hnext := hstep i
    have hmod := hmod (i + 1) hi
    rwa [Nat.mod_eq_of_lt (by omega)] at hmod

/-! ### Which of them stay in the back buffer -/

theorem mem_fillPixels {p : Pixel} : p ∈ fillPixels frame ↔
    p.x < frame.xAxis ∧ p.y < frame.yAxis ∧ p.color = ⟨0xff, 0xff, 0xff⟩ := by
  unfold fillPixels
  constructor
  · intro hp
    obtain ⟨i, hi, hp⟩ := List.mem_flatMap.1 hp
    obtain ⟨j, hj, rfl⟩ := List.mem_map.1 hp
    rw [List.mem_range] at hi hj
    have hx := frame.xAxis.isLt
    have hy := frame.yAxis.isLt
    refine ⟨?_, ?_, rfl⟩
    · rwa [BitVec.lt_def, toNat_ofNat_of_lt (by omega)]
    · rwa [BitVec.lt_def, toNat_ofNat_of_lt (by omega)]
  · obtain ⟨x, y, c⟩ := p
    rintro ⟨hx, hy, hc⟩
    refine List.mem_flatMap.2 ⟨x.toNat, List.mem_range.2 hx, List.mem_map.2 ⟨y.toNat, List.mem_range.2 hy, ?_⟩⟩
    rw [BitVec.ofNat_toNat, BitVec.ofNat_toNat, BitVec.setWidth_eq, BitVec.setWidth_eq, ← hc]

theorem fillPixels_lt_iff (hx : scr.xAxis = frame.xAxis) :
    (∀ p ∈ fillPixels frame, (scr.index p.x p.y).toNat < kBackFbEntries) ↔
      frame.xAxis.toNat * frame.yAxis.toNat ≤ kBackFbEntries := by
  have hkb : kBackFbEntries = 2116800 := rfl
  constructor
  · intro hall
    by_contra hlarge
    -- the pixel whose index is the number of entries
    have hpos : 0 < frame.xAxis.toNat := Nat.pos_of_ne_zero fun hzero => hlarge (by simp [hzero])
    have hcol := Nat.mod_lt kBackFbEntries hpos
    have hrow : kBackFbEntries / frame.xAxis.toNat < frame.yAxis.toNat :=
      Nat.div_lt_of_lt_mul (Nat.not_le.1 hlarge)
    have hwidth := frame.xAxis.isLt
    have hheight := frame.yAxis.isLt
    have hX : (BitVec.ofNat 32 (kBackFbEntries % frame.xAxis.toNat)).toNat =
        kBackFbEntries % frame.xAxis.toNat := Nat.mod_eq_of_lt (by omega)
    have hY : (BitVec.ofNat 32 (kBackFbEntries / frame.xAxis.toNat)).toNat =
        kBackFbEntries / frame.xAxis.toNat := Nat.mod_eq_of_lt (by omega)
    have hlt := hall ⟨BitVec.ofNat 32 (kBackFbEntries % frame.xAxis.toNat),
      BitVec.ofNat 32 (kBackFbEntries / frame.xAxis.toNat), ⟨0xff, 0xff, 0xff⟩⟩
      (mem_fillPixels.2 ⟨by rwa [BitVec.lt_def, hX], by rwa [BitVec.lt_def, hY], rfl⟩)
    rw [toNat_index_mod, hx, hX, hY, Nat.mul_comm, Nat.div_add_mod] at hlt
    exact absurd hlt (by decide)
  · intro hle p hp
    obtain ⟨hpx, hpy, -⟩ := mem_fillPixels.1 hp
    have hon : p.point ∈ frame.onScreen := ⟨hpx, hpy⟩
    have hlt := Screen.offset_lt hon
    rw [toNat_index_mod, hx]
    exact (Nat.mod_le _ _).trans_lt (hlt.trans_le hle)

/-- Four pixels of the second square that all stay below `kBackFbEntries`. -/
theorem width_le_of_mod_lt {w : ℕ} (hw : w < 2 ^ 32) (h150 : (150 * w + 150) % 2 ^ 32 < 2116800)
    (h151 : (151 * w + 150) % 2 ^ 32 < 2116800) (h230 : (230 * w + 150) % 2 ^ 32 < 2116800)
    (hlast : (230 * w + 170) % 2 ^ 32 < 2116800) : w ≤ 9202 := by
  -- from one line to the next, the index moves by less than the buffer, up or down
  have hends : w < 2116800 ∨ 2 ^ 32 - 2116800 < w := by
    have hnext : (151 * w + 150) % 2 ^ 32 = ((150 * w + 150) % 2 ^ 32 + w) % 2 ^ 32 := by
      rw [Nat.mod_add_mod]
      exact congrArg (· % 2 ^ 32) (by omega)
    rw [hnext] at h151
    generalize (150 * w + 150) % 2 ^ 32 = r at h150 h151
    by_cases hwrap : r + w < 2 ^ 32
    · rw [Nat.mod_eq_of_lt hwrap] at h151
      omega
    · omega
  rcases hends with hlow | hhigh
  · rw [Nat.mod_eq_of_lt (by omega)] at h150 hlast
    omega
  · obtain ⟨k, hk, hk', rfl⟩ : ∃ k, 1 ≤ k ∧ k < 2116800 ∧ w = 2 ^ 32 - k :=
      ⟨2 ^ 32 - w, by omega, by omega, by omega⟩
    have hwrap : 230 * (2 ^ 32 - k) + 150 = 2 ^ 32 * 229 + (2 ^ 32 + 150 - 230 * k) := by omega
    rw [hwrap, Nat.mul_add_mod, Nat.mod_eq_of_lt (by omega)] at h230
    omega

theorem squarePixels_lt_iff :
    (∀ p ∈ squarePixels 100 100 200 200 ⟨0, 0xff, 0⟩ ++ squarePixels 150 150 170 230 ⟨0, 0, 0xff⟩,
      (scr.index p.x p.y).toNat < kBackFbEntries) ↔ scr.xAxis.toNat ≤ 9202 := by
  have hkb : kBackFbEntries = 2116800 := rfl
  have hwidth := scr.xAxis.isLt
  constructor
  · intro hall
    have hblue : ∀ x y : BitVec 32, 150 ≤ x → x ≤ 170 → 150 ≤ y → y ≤ 230 →
        (y.toNat * scr.xAxis.toNat + x.toNat) % 2 ^ 32 < kBackFbEntries := by
      intro x y hx1 hx2 hy1 hy2
      rw [← toNat_index_mod]
      exact hall ⟨x, y, ⟨0, 0, 0xff⟩⟩
        (List.mem_append_right _ (mem_squarePixels.2 ⟨⟨hx1, hx2⟩, ⟨hy1, hy2⟩, rfl⟩))
    have h1 : (150 * scr.xAxis.toNat + 150) % 2 ^ 32 < kBackFbEntries :=
      hblue 150 150 (by decide) (by decide) (by decide) (by decide)
    have h2 : (151 * scr.xAxis.toNat + 150) % 2 ^ 32 < kBackFbEntries :=
      hblue 150 151 (by decide) (by decide) (by decide) (by decide)
    have h3 : (230 * scr.xAxis.toNat + 150) % 2 ^ 32 < kBackFbEntries :=
      hblue 150 230 (by decide) (by decide) (by decide) (by decide)
    have h4 : (230 * scr.xAxis.toNat + 170) % 2 ^ 32 < kBackFbEntries :=
      hblue 170 230 (by decide) (by decide) (by decide) (by decide)
    exact width_le_of_mod_lt hwidth h1 h2 h3 h4
  · intro hle p hp
    have hbound : ∀ x y : BitVec 32, x.toNat ≤ 200 → y.toNat ≤ 230 → (y.toNat ≤ 200 ∨ x.toNat ≤ 170) →
        (scr.index x y).toNat < kBackFbEntries := by
      intro x y hx hy hcase
      have hmul : y.toNat * scr.xAxis.toNat ≤ y.toNat * 9202 := Nat.mul_le_mul_left _ hle
      rw [toNat_index_mod]
      exact (Nat.mod_le _ _).trans_lt (by omega)
    rcases List.mem_append.1 hp with hp | hp
    · obtain ⟨⟨-, hx⟩, ⟨-, hy⟩, -⟩ := mem_squarePixels.1 hp
      have hx : p.x.toNat ≤ 200 := hx
      have hy : p.y.toNat ≤ 200 := hy
      exact hbound p.x p.y hx (by omega) (Or.inl hy)
    · obtain ⟨⟨-, hx⟩, ⟨-, hy⟩, -⟩ := mem_squarePixels.1 hp
      have hx : p.x.toNat ≤ 170 := hx
      have hy : p.y.toNat ≤ 230 := hy
      exact hbound p.x p.y (by omega) hy (Or.inr hx)

theorem toNat_index_picture {i j : ℕ} (hi : i < 2 ^ 31) (hj : j < 2 ^ 31) :
    (scr.index (BitVec.ofNat 32 i + 200) (BitVec.ofNat 32 j + 200)).toNat =
      ((200 + j) * scr.xAxis.toNat + (200 + i)) % 2 ^ 32 := by
  have hadd : ∀ k < 2 ^ 31, (BitVec.ofNat 32 k + 200).toNat = 200 + k := fun k hk => by
    rw [BitVec.add_comm]
    exact DrawCall.toNat_add_ofNat (by show 200 + k < 2 ^ 32; omega)
  rw [toNat_index_mod, hadd i hi, hadd j hj]

theorem bmpPixels_lt_iff (hx : scr.xAxis.toNat ≤ 9202) (b : BitMapImage) :
    (∀ p ∈ bmpPixels 200 200 m b, (scr.index p.x p.y).toNat < kBackFbEntries) ↔
      b.width = 0 ∨ b.height = 0 ∨ 2 ^ 31 ≤ b.width.toNat ∨ 2 ^ 31 ≤ b.height.toNat ∨
        (199 + b.height.toNat) * scr.xAxis.toNat + (199 + b.width.toNat) < kBackFbEntries := by
  have hkb : kBackFbEntries = 2116800 := rfl
  constructor
  · intro hall
    by_contra hnot
    simp only [not_or, Nat.not_le] at hnot
    obtain ⟨hw0, hh0, hw, hh, hlast⟩ := hnot
    have hwpos : b.width.toNat ≠ 0 := fun h => hw0 (BitVec.eq_of_toNat_eq h)
    have hhpos : b.height.toNat ≠ 0 := fun h => hh0 (BitVec.eq_of_toNat_eq h)
    have hmod : ∀ i < b.width.toNat, ∀ j < b.height.toNat,
        ((200 + j) * scr.xAxis.toNat + (200 + i)) % 2 ^ 32 < kBackFbEntries := by
      intro i hi j hj
      have hmem : (⟨BitVec.ofNat 32 i + 200, BitVec.ofNat 32 j + 200,
          b.getColor m (BitVec.ofNat 32 i) (BitVec.ofNat 32 j)⟩ : Pixel) ∈ bmpPixels 200 200 m b :=
        mem_bmpPixels.2 ⟨i, DrawCall.lt_toInt_toNat.2 ⟨hw, hi⟩, j, DrawCall.lt_toInt_toNat.2 ⟨hh, hj⟩, rfl⟩
      have hlt := hall _ hmem
      rwa [toNat_index_picture (hi.trans hw) (hj.trans hh)] at hlt
    -- down the first column, and then along the last row
    have hcolumn := lt_of_mod_lt (f := fun j => (200 + j) * scr.xAxis.toNat + (200 + 0)) (d := 9202)
      (show (200 + 0) * scr.xAxis.toNat + (200 + 0) < kBackFbEntries by omega)
      (fun j => by show (200 + (j + 1)) * scr.xAxis.toNat + (200 + 0) ≤ _; ring_nf; omega)
      (by omega) (hmod 0 (by omega)) (b.height.toNat - 1) (by omega)
    have hrow := lt_of_mod_lt
      (f := fun i => (200 + (b.height.toNat - 1)) * scr.xAxis.toNat + (200 + i)) (d := 1) hcolumn
      (fun i => le_rfl) (by omega) (fun i hi => hmod i hi _ (by omega)) (b.width.toNat - 1) (by omega)
    have hsum : (200 + (b.height.toNat - 1)) * scr.xAxis.toNat + (200 + (b.width.toNat - 1)) =
        (199 + b.height.toNat) * scr.xAxis.toNat + (199 + b.width.toNat) := by
      rw [show 200 + (b.height.toNat - 1) = 199 + b.height.toNat by omega]
      omega
    exact hlast (hsum ▸ hrow)
  · intro hcond p hp
    obtain ⟨i, hi, j, hj, rfl⟩ := mem_bmpPixels.1 hp
    obtain ⟨hw, hi⟩ := DrawCall.lt_toInt_toNat.1 hi
    obtain ⟨hh, hj⟩ := DrawCall.lt_toInt_toNat.1 hj
    rw [toNat_index_picture (hi.trans hw) (hj.trans hh)]
    refine (Nat.mod_le _ _).trans_lt ?_
    rcases hcond with hw0 | hh0 | hw' | hh' | hlast
    · rw [hw0] at hi
      exact absurd hi (Nat.not_lt_zero i)
    · rw [hh0] at hj
      exact absurd hj (Nat.not_lt_zero j)
    · omega
    · omega
    · have hmul : (200 + j) * scr.xAxis.toNat ≤ (199 + b.height.toNat) * scr.xAxis.toNat :=
        Nat.mul_le_mul_right _ (by omega)
      omega

/-- The pixels that `KernelMain` writes through the back buffer, and the bytes that it copies from there,
are in the back buffer exactly when the mode and the picture are small enough. Nothing else is asked of
them before. -/
theorem kernelDraw_inBackFb_iff (back_fb : SizeT) (vinfo : VideoInfo) (file : Memory) (bmp : SizeT) :
    ∃ sm front back indices, initializeScreen back_fb vinfo ScreenList.zeroed = some sm ∧
      (sm.getScreen 0).map sm.deref = some front ∧ (sm.getScreen 1).map sm.deref = some back ∧
      kernelDraw (note back) front file bmp [] = some indices ∧
      (((∀ i ∈ indices, i.toNat < kBackFbEntries) ∧ copiedBytes front back ≤ kBackFbBytes) ↔
        vinfo.xAxis.toNat * vinfo.yAxis.toNat ≤ kBackFbEntries ∧ vinfo.xAxis.toNat ≤ 9202 ∧
        ((BitMapImage.ofFile file bmp).width = 0 ∨ (BitMapImage.ofFile file bmp).height = 0 ∨
          2 ^ 31 ≤ (BitMapImage.ofFile file bmp).width.toNat ∨
          2 ^ 31 ≤ (BitMapImage.ofFile file bmp).height.toNat ∨
          (199 + (BitMapImage.ofFile file bmp).height.toNat) * vinfo.xAxis.toNat +
            (199 + (BitMapImage.ofFile file bmp).width.toNat) < kBackFbEntries) ∧
        vinfo.fbSize.toNat ≤ kBackFbBytes) := by
  obtain ⟨sm, hinit, hfront, hback⟩ := initializeScreen_eq back_fb vinfo .zeroed rfl
  refine ⟨sm, frontScreen vinfo, backScreen back_fb vinfo, _, hinit, hfront, hback,
    kernelDraw_eq.trans (note_run _ _), ?_⟩
  have hcopied : copiedBytes (frontScreen vinfo) (backScreen back_fb vinfo) = vinfo.fbSize.toNat :=
    if_neg (not_not.2 rfl)
  have hfill : (∀ p ∈ fillPixels (frontScreen vinfo),
      ((backScreen back_fb vinfo).index p.x p.y).toNat < kBackFbEntries) ↔
        vinfo.xAxis.toNat * vinfo.yAxis.toNat ≤ kBackFbEntries := fillPixels_lt_iff rfl
  have hwidth : (backScreen back_fb vinfo).xAxis = vinfo.xAxis := rfl
  rw [hcopied, List.nil_append, List.forall_mem_map]
  unfold kernelPixels
  rw [List.append_assoc (fillPixels _), List.forall_mem_append, List.forall_mem_append, hfill,
    squarePixels_lt_iff, hwidth]
  constructor
  · rintro ⟨⟨⟨hentries, hcolumns⟩, hbmp⟩, hcopy⟩
    exact ⟨hentries, hcolumns, (bmpPixels_lt_iff hcolumns _).1 hbmp, hcopy⟩
  · rintro ⟨hentries, hcolumns, hbmp, hcopy⟩
    exact ⟨⟨⟨hentries, hcolumns⟩, (bmpPixels_lt_iff hcolumns _).2 hbmp⟩, hcopy⟩

/-! ### A large mode -/

def wideMode : VideoInfo := ⟨0x80000000, 14745600, 2560, 1440, 2560⟩

/-- In a mode of 2560 by 1440 pixels, `KernelMain` writes to the entry behind the last one. The picture
is one of no pixels here. -/
theorem kernelDraw_leaves_backFb :
    ∃ sm front back indices, initializeScreen 0x200000 wideMode ScreenList.zeroed = some sm ∧
      (sm.getScreen 0).map sm.deref = some front ∧ (sm.getScreen 1).map sm.deref = some back ∧
      kernelDraw (note back) front (fun _ => 0) 0 [] = some indices ∧
      BitVec.ofNat 32 kBackFbEntries ∈ indices := by
  obtain ⟨sm, hinit, hfront, hback⟩ := initializeScreen_eq 0x200000 wideMode .zeroed rfl
  refine ⟨sm, frontScreen wideMode, backScreen 0x200000 wideMode, _, hinit, hfront, hback,
    kernelDraw_eq.trans (note_run _ _), ?_⟩
  rw [List.nil_append]
  unfold kernelPixels
  refine List.mem_map.2 ⟨⟨2240, 826, ⟨0xff, 0xff, 0xff⟩⟩, ?_, by decide⟩
  simp only [List.mem_append]
  exact Or.inl (Or.inl (Or.inl (mem_fillPixels.2 ⟨by decide, by decide, rfl⟩)))

end MosaOS
