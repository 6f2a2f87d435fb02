import MosaOS.Screen
import MosaOS.Lib.Layer
import Mathlib.Tactic.Ring

/-!
# A screen as a canvas

The abstract screen gives every point its colour, and a call of a drawing function is a layer over it.
`writePixel_view` is the step of the refinement: a pixel written is one point painted, and no byte
outside the colours of the screen changes. `draw_pixels` takes it to the pixels of a call, `draw_view` to
its shape and `draw_canvas` to runs of calls; `draw_view_iff` says that no call but the `Counted` ones
refines its shape.
-/

namespace MosaOS
open ByteMem Layer

/-- A point, its column first. -/
abbrev Point := ℕ × ℕ

namespace Screen

def onScreen (scr : Screen) : Set Point := {p | p.1 < scr.xAxis.toNat ∧ p.2 < scr.yAxis.toNat}

def offset (scr : Screen) (p : Point) : ℕ := p.2 * scr.xAxis.toNat + p.1

/-- The colours that a memory gives to the points. -/
def view (scr : Screen) (m : Memory) (p : Point) : Color :=
  pixelAt m (scr.fb + BitVec.ofNat 64 (4 * scr.offset p))

/-- The bytes of the frame buffer that hold colours. -/
def colorBytes (scr : Screen) : Set SizeT :=
  {a | ∃ p ∈ scr.onScreen, ∃ i < 3, a = scr.fb + BitVec.ofNat 64 (4 * scr.offset p + i)}

/-- The screen's pixels have different indices of 32 bits. -/
def Fits (scr : Screen) : Prop := scr.xAxis.toNat * scr.yAxis.toNat ≤ 2 ^ 32

/-- The pixel at `p` is the one that `writePixel x y` writes. -/
def Hits (scr : Screen) (x y : BitVec 32) (p : Point) : Prop :=
  scr.offset p % 2 ^ 62 = (scr.index x y).toNat

instance (scr : Screen) (x y : BitVec 32) (p : Point) : Decidable (scr.Hits x y p) :=
  inferInstanceAs (Decidable (_ = _))

variable {scr : Screen} {p q : Point} {m : Memory} {x y : BitVec 32} {c : Color}

theorem offset_lt (hp : p ∈ scr.onScreen) : scr.offset p < scr.xAxis.toNat * scr.yAxis.toNat := by
  obtain ⟨hx, hy⟩ := hp
  calc scr.offset p < p.2 * scr.xAxis.toNat + scr.xAxis.toNat := Nat.add_lt_add_left hx _
    _ = scr.xAxis.toNat * (p.2 + 1) := by ring
    _ ≤ scr.xAxis.toNat * scr.yAxis.toNat := Nat.mul_le_mul_left _ hy

theorem offset_injOn : Set.InjOn scr.offset scr.onScreen := by
  rintro p ⟨hp, -⟩ q ⟨hq, -⟩ h
  have hpos : 0 < scr.xAxis.toNat := Nat.zero_lt_of_lt hp
  have hrow : ∀ r : Point, r.1 < scr.xAxis.toNat → scr.offset r / scr.xAxis.toNat = r.2 ∧
      scr.offset r % scr.xAxis.toNat = r.1 := by
    intro r hr
    unfold offset
    rw [Nat.add_comm, Nat.add_mul_div_right _ _ hpos, Nat.add_mul_mod_self_right, Nat.div_eq_of_lt hr,
      Nat.mod_eq_of_lt hr, Nat.zero_add]
    exact ⟨rfl, rfl⟩
  obtain ⟨hp2, hp1⟩ := hrow p hp
  obtain ⟨hq2, hq1⟩ := hrow q hq
  rw [h] at hp1 hp2
  exact Prod.ext (hp1.symm.trans hq1) (hp2.symm.trans hq2)

theorem toNat_index (hfit : scr.Fits) (hp : (x.toNat, y.toNat) ∈ scr.onScreen) :
    (scr.index x y).toNat = scr.offset (x.toNat, y.toNat) := by
  have hlt := (offset_lt hp).trans_le hfit
  rw [index, BitVec.toNat_add, BitVec.toNat_mul, Nat.mod_add_mod]
  exact Nat.mod_eq_of_lt hlt

/-- The bytes from `fb` on after `writePixel`. -/
theorem writePixel_byte {k o : ℕ} (hk : (scr.index x y).toNat = k) (ho : o < 2 ^ 64) :
    scr.writePixel x y c m (scr.fb + BitVec.ofNat 64 o) =
      if o = 4 * k + 2 then c.r else if o = 4 * k + 1 then c.g else if o = 4 * k then c.b
      else m (scr.fb + BitVec.ofNat 64 o) := by
  have hlt : k < 2 ^ 32 := hk ▸ (scr.index x y).isLt
  have hdst : scr.fb + 4 * (scr.index x y).setWidth 64 = scr.fb + BitVec.ofNat 64 (4 * k) := by
    refine congrArg (scr.fb + ·) (BitVec.eq_of_toNat_eq ?_)
    rw [BitVec.toNat_mul, BitVec.toNat_setWidth, hk, BitVec.toNat_ofNat]
    show 4 * (k % 2 ^ 64) % 2 ^ 64 = _
    omega
  have hone : scr.fb + BitVec.ofNat 64 (4 * k) + 1 = scr.fb + BitVec.ofNat 64 (4 * k + 1) :=
    add_ofNat scr.fb (4 * k) 1
  have htwo : scr.fb + BitVec.ofNat 64 (4 * k) + 2 = scr.fb + BitVec.ofNat 64 (4 * k + 2) :=
    add_ofNat scr.fb (4 * k) 2
  have hsame : ∀ i ≤ 2, scr.fb + BitVec.ofNat 64 o = scr.fb + BitVec.ofNat 64 (4 * k + i) ↔
      o = 4 * k + i := fun i hi => add_ofNat_inj ho (by omega)
  have hsame0 : scr.fb + BitVec.ofNat 64 o = scr.fb + BitVec.ofNat 64 (4 * k) ↔ o = 4 * k :=
    hsame 0 (by omega)
  simp only [writePixel, hdst, hone, htwo, Function.update_apply, hsame 1 (by omega),
    hsame 2 le_rfl, hsame0]

/-- On any screen, a pixel is written whole or not at all. -/
theorem view_writePixel : scr.view (scr.writePixel x y c m) p =
    if scr.Hits x y p then c else scr.view m p := by
  have hplace : BitVec.ofNat 64 (4 * scr.offset p) = BitVec.ofNat 64 (4 * (scr.offset p % 2 ^ 62)) := by
    refine BitVec.eq_of_toNat_eq ?_
    rw [BitVec.toNat_ofNat, BitVec.toNat_ofNat]
    omega
  have hcolor : ∀ m', scr.view m' p = ⟨m' (scr.fb + BitVec.ofNat 64 (4 * (scr.offset p % 2 ^ 62) + 2)),
      m' (scr.fb + BitVec.ofNat 64 (4 * (scr.offset p % 2 ^ 62) + 1)),
      m' (scr.fb + BitVec.ofNat 64 (4 * (scr.offset p % 2 ^ 62)))⟩ := fun m' => by
    rw [view, hplace, pixelAt_add]
  rw [hcolor, writePixel_byte rfl (by omega), writePixel_byte rfl (by omega),
    writePixel_byte rfl (by omega)]
  by_cases hhit : scr.Hits x y p
  · have hsame : scr.offset p % 2 ^ 62 = (scr.index x y).toNat := hhit
    rw [if_pos hhit, hsame, if_pos rfl, if_neg (by omega), if_pos rfl, if_neg (by omega),
      if_neg (by omega), if_pos rfl]
  · have hne : scr.offset p % 2 ^ 62 ≠ (scr.index x y).toNat := hhit
    rw [if_neg hhit, hcolor]
    rw [if_neg (by omega), if_neg (by omega), if_neg (by omega), if_neg (by omega), if_neg (by omega),
      if_neg (by omega), if_neg (by omega), if_neg (by omega), if_neg (by omega)]

theorem hits_iff (hfit : scr.Fits) (hp : (x.toNat, y.toNat) ∈ scr.onScreen) (hq : q ∈ scr.onScreen) :
    scr.Hits x y q ↔ (x.toNat, y.toNat) = q := by
  have hlt := (offset_lt hq).trans_le hfit
  rw [Hits, toNat_index hfit hp, Nat.mod_eq_of_lt (by omega)]
  exact ⟨fun h => offset_injOn hp hq h.symm, fun h => by rw [h]⟩

/-- A pixel written is a point painted. -/
theorem writePixel_view (hfit : scr.Fits) (hp : (x.toNat, y.toNat) ∈ scr.onScreen) :
    Set.EqOn (scr.view (scr.writePixel x y c m)) (paint (point (x.toNat, y.toNat) c) (scr.view m))
      scr.onScreen := by
  intro q hq
  rw [view_writePixel, paint, point]
  by_cases hsame : (x.toNat, y.toNat) = q
  · rw [if_pos ((hits_iff hfit hp hq).2 hsame), if_pos hsame, Option.getD_some]
  · rw [if_neg fun hhit => hsame ((hits_iff hfit hp hq).1 hhit), if_neg hsame, Option.getD_none]

/-- No byte but the colours of the screen changes. -/
theorem writePixel_frame (hfit : scr.Fits) (hp : (x.toNat, y.toNat) ∈ scr.onScreen) :
    Set.EqOn (scr.writePixel x y c m) m scr.colorBytesᶜ := by
  intro a ha
  rw [eq_add_ofNat a scr.fb] at ha ⊢
  have ho := (a - scr.fb).isLt
  generalize (a - scr.fb).toNat = o at ha ho
  have hne : ∀ i < 3, o ≠ 4 * scr.offset (x.toNat, y.toNat) + i := fun i hi heq =>
    ha ⟨_, hp, i, hi, by rw [heq]⟩
  have hne0 : o ≠ 4 * scr.offset (x.toNat, y.toNat) := hne 0 (by omega)
  rw [writePixel_byte (toNat_index hfit hp) ho, if_neg (hne 2 (by omega)), if_neg (hne 1 (by omega)),
    if_neg hne0]

/-- The fourth byte of a pixel holds no colour. -/
theorem fourth_notMem (hfit : scr.Fits) (hp : p ∈ scr.onScreen) :
    scr.fb + BitVec.ofNat 64 (4 * scr.offset p + 3) ∉ scr.colorBytes := by
  rintro ⟨q, hq, i, hi, heq⟩
  have hlt := (offset_lt hp).trans_le hfit
  have hlt' := (offset_lt hq).trans_le hfit
  have := (add_ofNat_inj (by omega) (by omega)).1 heq
  omega

theorem colorBytes_subset :
    scr.colorBytes ⊆ range scr.fb (4 * (scr.xAxis.toNat * scr.yAxis.toNat)) := by
  rintro a ⟨p, hp, i, hi, rfl⟩
  have hlt := offset_lt hp
  rw [mem_range, add_sub_self, BitVec.toNat_ofNat]
  exact (Nat.mod_le _ _).trans_lt (by omega)

end Screen

/-! ### Shapes -/

def Pixel.point (p : Pixel) : Point := (p.x.toNat, p.y.toNat)

/-- Whether the text `line` has a dot in the column `i` from its left and the row `j` from its top. -/
def textDot (gFont : AsciiFont) (line : List (BitVec 8)) (i j : ℕ) : Bool :=
  decide (i / 8 < line.length) &&
    (gFont.getFont (line.getD (i / 8) 0).toInt).elim false fun font => font.dot (i % 8) j

namespace DrawCall

/-- What a call draws, were the numbers of the source unbounded. -/
def shape (gFont : AsciiFont) : DrawCall → Layer Point Color
  | writePixel x y c => point (x.toNat, y.toNat) c
  | writeSquare x1 y1 x2 y2 c => fun p =>
    if x1.toNat ≤ p.1 ∧ p.1 ≤ x2.toNat ∧ y1.toNat ≤ p.2 ∧ p.2 ≤ y2.toNat then some c else none
  | printLine x y c line => fun p =>
    if x.toNat ≤ p.1 ∧ y.toNat ≤ p.2 ∧ textDot gFont line (p.1 - x.toNat) (p.2 - y.toNat) then some c
    else none
  | printBmp x y m bmp => fun p =>
    if x.toNat ≤ p.1 ∧ p.1 < x.toNat + bmp.width.toNat ∧
        y.toNat ≤ p.2 ∧ p.2 < y.toNat + bmp.height.toNat then
      some (bmp.getColor m (BitVec.ofNat 32 (p.1 - x.toNat)) (BitVec.ofNat 32 (p.2 - y.toNat)))
    else none

/-- The strings that `printLine` is meant for. -/
def IsAscii : DrawCall → Prop
  | printLine _ _ _ line => ∀ c ∈ line, 1 ≤ c.toNat ∧ c.toNat ≤ 127
  | _ => True

def InRange (gFont : AsciiFont) (scr : Screen) (call : DrawCall) : Prop :=
  ∀ p, call.shape gFont p ≠ none → p ∈ scr.onScreen

/-- What the loops of a call leave out. A rectangle without rows still counts its columns to `x2`, a
text is drawn up to an `int` of its length, and a picture of 2^31 or more pixels in a row or column is
not drawn. -/
def Counted (gFont : AsciiFont) : DrawCall → Prop
  | writePixel .. => True
  | writeSquare _ y1 x2 y2 _ => ¬ (x2 = BitVec.allOnes 32 ∧ y2 < y1)
  | printLine _ _ _ line => ∀ i j, intLen line ≤ i / 8 → textDot gFont line i j = false
  | printBmp _ _ _ bmp => bmp.width = 0 ∨ bmp.height = 0 ∨
      bmp.width.toNat < 2 ^ 31 ∧ bmp.height.toNat < 2 ^ 31

variable {gFont : AsciiFont} {scr : Screen} {call : DrawCall}

theorem InRange.lt (h : call.InRange gFont scr) {p : Point} (hp : call.shape gFont p ≠ none) :
    p.1 < 2 ^ 32 ∧ p.2 < 2 ^ 32 := by
  obtain ⟨hx, hy⟩ := h p hp
  exact ⟨hx.trans scr.xAxis.isLt, hy.trans scr.yAxis.isLt⟩

/-- A call returns when its pixels are on the screen. -/
theorem InRange.returns (h : call.InRange gFont scr) (hcount : call.Counted gFont)
    (hascii : call.IsAscii) : call.Returns := by
  cases call with
  | writePixel x y c => trivial
  | writeSquare x1 y1 x2 y2 c =>
    intro hx
    rw [BitVec.le_def] at hx
    have hcorner : ∀ y, y1.toNat ≤ y → y ≤ y2.toNat → (x2.toNat, y) ∈ scr.onScreen := by
      intro y hlo hhi
      exact h _ (ne_of_eq_of_ne (if_pos ⟨hx, le_rfl, hlo, hhi⟩) (Option.some_ne_none c))
    refine ⟨fun hmax => ?_, fun hy hmax => ?_⟩
    · by_cases hy : y1 ≤ y2
      · have hlt := (hcorner y1.toNat le_rfl hy).1
        have := scr.xAxis.isLt
        rw [hmax, BitVec.toNat_allOnes] at hlt
        omega
      · exact hcount ⟨hmax, BitVec.not_le.1 hy⟩
    · have hlt := (hcorner y2.toNat hy le_rfl).2
      have := scr.yAxis.isLt
      rw [hmax, BitVec.toNat_allOnes] at hlt
      omega
  | printLine x y c line =>
    exact printLine_returns fun b hb => Nat.lt_succ_of_le (hascii b hb).2
  | printBmp x y m bmp => trivial

theorem toNat_add_ofNat {x : BitVec 32} {k : ℕ} (h : x.toNat + k < 2 ^ 32) :
    (x + BitVec.ofNat 32 k).toNat = x.toNat + k := by
  rw [BitVec.toNat_add, BitVec.toNat_ofNat, Nat.add_mod_mod]
  exact Nat.mod_eq_of_lt h

/-- How often a loop to an `int` turns. -/
theorem toInt_toNat (x : BitVec 32) : x.toInt.toNat = if x.toNat < 2 ^ 31 then x.toNat else 0 := by
  have := x.isLt
  rw [BitVec.toInt_eq_toNat_cond]
  split <;> split <;> omega

theorem lt_toInt_toNat {x : BitVec 32} {i : ℕ} : i < x.toInt.toNat ↔ x.toNat < 2 ^ 31 ∧ i < x.toNat := by
  rw [toInt_toNat]
  split <;> omega

theorem toInt_toNat_le (x : BitVec 32) : x.toInt.toNat ≤ x.toNat := by
  rw [toInt_toNat]
  split <;> omega

theorem intLen_le (line : List (BitVec 8)) : intLen line ≤ line.length :=
  (toInt_toNat_le _).trans (by rw [BitVec.toNat_ofNat]; exact Nat.mod_le _ _)

theorem textDot_iff {line : List (BitVec 8)} {i j : ℕ} : textDot gFont line i j = true ↔
    i / 8 < line.length ∧ ∃ font, gFont.getFont (line.getD (i / 8) 0).toInt = some font ∧
      font.dot (i % 8) j = true := by
  unfold textDot
  rw [Bool.and_eq_true, decide_eq_true_iff]
  refine and_congr_right fun _ => ?_
  cases gFont.getFont (line.getD (i / 8) 0).toInt with
  | none => simp
  | some font => simp

theorem mem_asciiPixels {font : MonoAsciiFont} {x y : BitVec 32} {c : Color} {q : Pixel} :
    q ∈ asciiPixels font x y c ↔ ∃ i < 8, ∃ j, font.dot i j = true ∧
      q = ⟨x + BitVec.ofNat 32 i, y + BitVec.ofNat 32 j, c⟩ := by
  unfold asciiPixels
  constructor
  · intro hq
    obtain ⟨i, hi, hq⟩ := List.mem_flatMap.1 hq
    obtain ⟨j, hj, rfl⟩ := List.mem_map.1 hq
    exact ⟨i, List.mem_range.1 hi, j, (List.mem_filter.1 hj).2, rfl⟩
  · rintro ⟨i, hi, j, hdot, rfl⟩
    refine List.mem_flatMap.2 ⟨i, List.mem_range.2 hi, List.mem_map.2 ⟨j, ?_, rfl⟩⟩
    exact List.mem_filter.2 ⟨List.mem_range.2 (font.lt_of_dot hdot), hdot⟩

/-- The pixels of a text, with the numbers of the source. -/
theorem mem_linePixels {x y : BitVec 32} {c : Color} {line : List (BitVec 8)} {q : Pixel} :
    q ∈ linePixels gFont x y c line ↔ ∃ i j, i / 8 < intLen line ∧ textDot gFont line i j = true ∧
      q = ⟨x + BitVec.ofNat 32 i, y + BitVec.ofNat 32 j, c⟩ := by
  unfold linePixels
  constructor
  · intro hq
    obtain ⟨k, hk, hq⟩ := List.mem_flatMap.1 hq
    rw [List.mem_range] at hk
    cases hfont : gFont.getFont (line.getD k 0).toInt with
    | none =>
      rw [hfont] at hq
      exact absurd hq List.not_mem_nil
    | some font =>
      rw [hfont] at hq
      obtain ⟨i, hi, j, hdot, rfl⟩ := mem_asciiPixels.1 hq
      have hdiv : (k * 8 + i) / 8 = k := by omega
      have hmod : (k * 8 + i) % 8 = i := by omega
      refine ⟨k * 8 + i, j, by omega, textDot_iff.2 ⟨?_, font, ?_, ?_⟩, ?_⟩
      · rw [hdiv]
        exact hk.trans_le (intLen_le line)
      · rw [hdiv, hfont]
      · rw [hmod, hdot]
      · rw [add_ofNat]
  · rintro ⟨i, j, hi, hdot, rfl⟩
    obtain ⟨-, font, hfont, hdot⟩ := textDot_iff.1 hdot
    refine List.mem_flatMap.2 ⟨i / 8, List.mem_range.2 hi, ?_⟩
    rw [hfont]
    refine mem_asciiPixels.2 ⟨i % 8, Nat.mod_lt i (by decide), j, hdot, ?_⟩
    rw [add_ofNat, show i / 8 * 8 + i % 8 = i by omega]

/-- The shape at a dot of a text on the screen, where nothing wraps. -/
theorem printLine_dot {x y : BitVec 32} {c : Color} {line : List (BitVec 8)} {i j : ℕ}
    (h : (printLine x y c line).InRange gFont scr) (hdot : textDot gFont line i j = true) :
    (printLine x y c line).shape gFont (x.toNat + i, y.toNat + j) = some c ∧
      (⟨x + BitVec.ofNat 32 i, y + BitVec.ofNat 32 j, c⟩ : Pixel).point = (x.toNat + i, y.toNat + j) := by
  have hshape : (printLine x y c line).shape gFont (x.toNat + i, y.toNat + j) = some c := by
    refine if_pos ⟨Nat.le_add_right _ _, Nat.le_add_right _ _, ?_⟩
    rw [Nat.add_sub_cancel_left, Nat.add_sub_cancel_left]
    exact hdot
  obtain ⟨hx, hy⟩ := h.lt (ne_of_eq_of_ne hshape (Option.some_ne_none c))
  exact ⟨hshape, Prod.ext (toNat_add_ofNat hx) (toNat_add_ofNat hy)⟩

/-- The shape at a pixel of a picture on the screen. -/
theorem printBmp_cell {x y : BitVec 32} {m : Memory} {bmp : BitMapImage} {i j : ℕ}
    (h : (printBmp x y m bmp).InRange gFont scr) (hi : i < bmp.width.toNat) (hj : j < bmp.height.toNat) :
    (printBmp x y m bmp).shape gFont (x.toNat + i, y.toNat + j) =
        some (bmp.getColor m (BitVec.ofNat 32 i) (BitVec.ofNat 32 j)) ∧
      (⟨BitVec.ofNat 32 i + x, BitVec.ofNat 32 j + y, bmp.getColor m (BitVec.ofNat 32 i)
        (BitVec.ofNat 32 j)⟩ : Pixel).point = (x.toNat + i, y.toNat + j) := by
  have hshape : (printBmp x y m bmp).shape gFont (x.toNat + i, y.toNat + j) =
      some (bmp.getColor m (BitVec.ofNat 32 i) (BitVec.ofNat 32 j)) := by
    show (if _ then some _ else none) = _
    rw [if_pos ⟨Nat.le_add_right _ _, Nat.add_lt_add_left hi _, Nat.le_add_right _ _,
      Nat.add_lt_add_left hj _⟩, Nat.add_sub_cancel_left, Nat.add_sub_cancel_left]
  obtain ⟨hx, hy⟩ := h.lt (ne_of_eq_of_ne hshape (Option.some_ne_none _))
  refine ⟨hshape, Prod.ext ?_ ?_⟩
  · show (BitVec.ofNat 32 i + x).toNat = _
    rw [BitVec.add_comm, toNat_add_ofNat hx]
  · show (BitVec.ofNat 32 j + y).toNat = _
    rw [BitVec.add_comm, toNat_add_ofNat hy]

/-- A call draws nothing but its shape. -/
theorem shape_of_mem_pixels (h : call.InRange gFont scr) {q : Pixel} (hq : q ∈ call.pixels gFont) :
    call.shape gFont q.point = some q.color := by
  cases call with
  | writePixel x y c =>
    obtain rfl := List.mem_singleton.1 hq
    exact if_pos rfl
  | writeSquare x1 y1 x2 y2 c =>
    obtain ⟨⟨hx1, hx2⟩, ⟨hy1, hy2⟩, rfl⟩ := mem_squarePixels.1 hq
    exact if_pos ⟨hx1, hx2, hy1, hy2⟩
  | printLine x y c line =>
    obtain ⟨i, j, -, htext, rfl⟩ := mem_linePixels.1 hq
    obtain ⟨hshape, hpoint⟩ := printLine_dot h htext
    rw [hpoint]
    exact hshape
  | printBmp x y m bmp =>
    obtain ⟨i, hi, j, hj, rfl⟩ := mem_bmpPixels.1 hq
    obtain ⟨hshape, hpoint⟩ := printBmp_cell h (hi.trans_le (toInt_toNat_le _))
      (hj.trans_le (toInt_toNat_le _))
    rw [hpoint]
    exact hshape

/-- A call draws all of its shape. -/
def Covers (gFont : AsciiFont) (call : DrawCall) : Prop :=
  ∀ p, call.shape gFont p ≠ none → ∃ q ∈ call.pixels gFont, q.point = p

theorem Counted.covers (h : call.InRange gFont scr) (hcount : call.Counted gFont) :
    call.Covers gFont := by
  intro p hp
  cases call with
  | writePixel x y c =>
    exact ⟨⟨x, y, c⟩, List.mem_singleton_self _, of_not_not fun hne => hp (if_neg hne)⟩
  | writeSquare x1 y1 x2 y2 c =>
    obtain ⟨hx1, hx2, hy1, hy2⟩ := of_not_not fun hnot => hp (if_neg hnot)
    have hx : (BitVec.ofNat 32 p.1).toNat = p.1 :=
      Nat.mod_eq_of_lt (lt_of_le_of_lt hx2 x2.isLt)
    have hy : (BitVec.ofNat 32 p.2).toNat = p.2 :=
      Nat.mod_eq_of_lt (lt_of_le_of_lt hy2 y2.isLt)
    refine ⟨⟨BitVec.ofNat 32 p.1, BitVec.ofNat 32 p.2, c⟩, mem_squarePixels.2 ⟨?_, ?_, rfl⟩,
      Prod.ext hx hy⟩
    · rw [BitVec.le_def, BitVec.le_def, hx]
      exact ⟨hx1, hx2⟩
    · rw [BitVec.le_def, BitVec.le_def, hy]
      exact ⟨hy1, hy2⟩
  | printLine x y c line =>
    obtain ⟨hx, hy, htext⟩ := of_not_not fun hnot => hp (if_neg hnot)
    obtain ⟨-, hpoint⟩ := printLine_dot h htext
    rw [Nat.add_sub_cancel' hx, Nat.add_sub_cancel' hy] at hpoint
    refine ⟨_, mem_linePixels.2 ⟨_, _, ?_, htext, rfl⟩, hpoint⟩
    by_contra hlen
    rw [hcount _ _ (Nat.not_lt.1 hlen)] at htext
    exact Bool.false_ne_true htext
  | printBmp x y m bmp =>
    obtain ⟨hx, hx', hy, hy'⟩ := of_not_not fun hnot => hp (if_neg hnot)
    obtain ⟨-, hpoint⟩ := printBmp_cell (i := p.1 - x.toNat) (j := p.2 - y.toNat) h (by omega) (by omega)
    rw [Nat.add_sub_cancel' hx, Nat.add_sub_cancel' hy] at hpoint
    have hsize : bmp.width.toInt.toNat = bmp.width.toNat ∧
        bmp.height.toInt.toNat = bmp.height.toNat := by
      rcases hcount with hw | hh | ⟨hw, hh⟩
      · rw [hw] at hx'
        exact absurd hx' (Nat.not_lt.2 hx)
      · rw [hh] at hy'
        exact absurd hy' (Nat.not_lt.2 hy)
      · rw [toInt_toNat, toInt_toNat, if_pos hw, if_pos hh]
        exact ⟨rfl, rfl⟩
    exact ⟨_, mem_bmpPixels.2 ⟨p.1 - x.toNat, by omega, p.2 - y.toNat, by omega, rfl⟩, hpoint⟩

/-- `Counted` leaves out no call that returns and draws all of its shape. -/
theorem counted_of_covers (h : call.InRange gFont scr) (hreturns : call.Returns)
    (hcovers : call.Covers gFont) : call.Counted gFont := by
  cases call with
  | writePixel x y c => trivial
  | writeSquare x1 y1 x2 y2 c =>
    rintro ⟨hmax, -⟩
    have hle : x1 ≤ x2 := by
      have := x1.isLt
      rw [hmax, BitVec.le_def, BitVec.toNat_allOnes]
      omega
    exact (hreturns hle).1 hmax
  | printLine x y c line =>
    intro i j hlen
    by_contra htext
    obtain ⟨hshape, -⟩ := printLine_dot h (Bool.eq_true_of_not_eq_false htext)
    obtain ⟨q, hq, hpoint⟩ := hcovers _ (ne_of_eq_of_ne hshape (Option.some_ne_none c))
    obtain ⟨i', j', hlt, htext', rfl⟩ := mem_linePixels.1 hq
    rw [(printLine_dot h htext').2] at hpoint
    have hsame : i' = i := Nat.add_left_cancel (congrArg Prod.fst hpoint)
    omega
  | printBmp x y m bmp =>
    by_cases hw : bmp.width = 0
    · exact Or.inl hw
    by_cases hh : bmp.height = 0
    · exact Or.inr (Or.inl hh)
    have hwpos : 0 < bmp.width.toNat := Nat.pos_of_ne_zero fun h0 => hw (BitVec.eq_of_toNat_eq h0)
    have hhpos : 0 < bmp.height.toNat := Nat.pos_of_ne_zero fun h0 => hh (BitVec.eq_of_toNat_eq h0)
    obtain ⟨hshape, -⟩ := printBmp_cell h hwpos hhpos
    obtain ⟨q, hq, -⟩ := hcovers _ (ne_of_eq_of_ne hshape (Option.some_ne_none _))
    obtain ⟨i, hi, j, hj, -⟩ := mem_bmpPixels.1 hq
    rw [toInt_toNat] at hi hj
    split at hi
    · split at hj
      · exact Or.inr (Or.inr ⟨‹_›, ‹_›⟩)
      · exact absurd hj (Nat.not_lt_zero j)
    · exact absurd hi (Nat.not_lt_zero i)

/-! ### Calls on a screen -/

/-- The last pixel that a call writes at a point. -/
def pixelLayer (gFont : AsciiFont) (call : DrawCall) : Layer Point Color :=
  stack ((call.pixels gFont).map fun p => point p.point p.color)

/-- A call that returns paints its pixels, and changes no byte but colours of the screen. -/
theorem draw_pixels (hfit : scr.Fits) (h : call.InRange gFont scr) (hreturns : call.Returns)
    (m : Memory) : ∃ m', call.draw scr.put gFont m = some m' ∧
      Set.EqOn (scr.view m') (paint (call.pixelLayer gFont) (scr.view m)) scr.onScreen ∧
      Set.EqOn m' m scr.colorBytesᶜ := by
  have hon : ∀ p ∈ call.pixels gFont, p.point ∈ scr.onScreen := fun p hp =>
    h _ (ne_of_eq_of_ne (shape_of_mem_pixels h hp) (Option.some_ne_none _))
  rw [draw_eq hreturns]
  obtain ⟨m', hrun, hframe⟩ : ∃ m',
      (call.pixels gFont).foldlM (fun m (p : Pixel) => scr.put p.x p.y p.color m) m = some m' ∧
        Set.EqOn m' m scr.colorBytesᶜ :=
    Run.total (P := fun m' => Set.EqOn m' m scr.colorBytesᶜ)
      (fun m₁ p hp hm₁ => ⟨_, rfl, (Screen.writePixel_frame hfit (hon p hp)).trans hm₁⟩) fun a _ => rfl
  refine ⟨m', hrun, Layer.run (fun m₁ p m₂ hp hstep => ?_) hrun, hframe⟩
  cases hstep
  exact Screen.writePixel_view hfit (hon p hp)

/-- A call paints its shape, and changes no byte but colours of the screen. -/
theorem draw_view (hfit : scr.Fits) (h : call.InRange gFont scr) (hcount : call.Counted gFont)
    (hascii : call.IsAscii) (m : Memory) : ∃ m', call.draw scr.put gFont m = some m' ∧
      Set.EqOn (scr.view m') (paint (call.shape gFont) (scr.view m)) scr.onScreen ∧
      Set.EqOn m' m scr.colorBytesᶜ := by
  have hshape : call.pixelLayer gFont = call.shape gFont :=
    stack_points (fun q hq => shape_of_mem_pixels h hq) (hcount.covers h)
  rw [← hshape]
  exact draw_pixels hfit h (h.returns hcount hascii) m

/-- `Counted` is what a call needs: on some memory, any other call does not paint its shape. -/
theorem draw_view_iff (hfit : scr.Fits) (h : call.InRange gFont scr) (hascii : call.IsAscii) :
    (∀ m, ∃ m', call.draw scr.put gFont m = some m' ∧
      Set.EqOn (scr.view m') (paint (call.shape gFont) (scr.view m)) scr.onScreen ∧
      Set.EqOn m' m scr.colorBytesᶜ) ↔ call.Counted gFont := by
  refine ⟨fun hall => ?_, fun hcount m => draw_view hfit h hcount hascii m⟩
  have hreturns : call.Returns := by
    by_contra hnot
    obtain ⟨m', hdraw, -⟩ := hall fun _ => 0
    rw [draw_eq_none hnot] at hdraw
    cases hdraw
  refine counted_of_covers h hreturns fun p hp => ?_
  by_contra hmiss
  obtain ⟨c, hc⟩ := Option.ne_none_iff_exists'.1 hp
  have hnone : call.pixelLayer gFont p = none := by
    refine stack_eq_none.2 fun l hl => ?_
    obtain ⟨q, hq, rfl⟩ := List.mem_map.1 hl
    exact if_neg fun heq => hmiss ⟨q, hq, heq⟩
  -- a memory that shows another colour there keeps showing it
  obtain ⟨m', hdraw, hview, -⟩ := hall fun _ => c.b + 1
  obtain ⟨m'', hdraw', hview', -⟩ := draw_pixels hfit h hreturns fun _ => c.b + 1
  obtain rfl : m' = m'' := Option.some.inj (hdraw.symm.trans hdraw')
  have hsame := (hview (h p hp)).symm.trans (hview' (h p hp))
  unfold paint at hsame
  rw [hc, hnone] at hsame
  have hblue : c.b = c.b + 1 := congrArg Color.b hsame
  bv_omega

end DrawCall

open DrawCall

/-- The colour that the last of the calls gives to a point. -/
def lastColor (gFont : AsciiFont) (calls : List DrawCall) : Layer Point Color :=
  stack (calls.map (DrawCall.shape gFont))

/-- `draw_view` for one call after the other. -/
theorem draws_view {calls : List DrawCall} (hfit : scr.Fits)
    (hok : ∀ call ∈ calls, call.IsAscii ∧ call.InRange gFont scr ∧ call.Counted gFont) (m : Memory) :
    ∃ m', calls.foldlM (fun m call => DrawCall.draw scr.put gFont m call) m = some m' ∧
      Set.EqOn (scr.view m') (paint (lastColor gFont calls) (scr.view m)) scr.onScreen ∧
      Set.EqOn m' m scr.colorBytesᶜ := by
  have hstep : ∀ m₁, ∀ call ∈ calls, ∃ m₂, call.draw scr.put gFont m₁ = some m₂ ∧
      Set.EqOn (scr.view m₂) (paint (call.shape gFont) (scr.view m₁)) scr.onScreen ∧
      Set.EqOn m₂ m₁ scr.colorBytesᶜ := by
    intro m₁ call hmem
    obtain ⟨hascii, hin, hcount⟩ := hok call hmem
    exact draw_view hfit hin hcount hascii m₁
  obtain ⟨m', hrun, hframe⟩ := Run.total (P := fun m' => Set.EqOn m' m scr.colorBytesᶜ)
    (fun m₁ call hmem hm₁ => by
      obtain ⟨m₂, hdraw, -, hkept⟩ := hstep m₁ call hmem
      exact ⟨m₂, hdraw, hkept.trans hm₁⟩)
    (fun a _ => rfl)
  refine ⟨m', hrun, Layer.run (fun m₁ call m₂ hmem hdraw => ?_) hrun, hframe⟩
  obtain ⟨m₂', hdraw', hpaint, -⟩ := hstep m₁ call hmem
  rw [hdraw] at hdraw'
  cases hdraw'
  exact hpaint

/-- Calls within the screen draw on it as on a canvas. -/
theorem draw_canvas (scr : Screen) (hfit : scr.Fits) (gFont : AsciiFont) (calls : List DrawCall)
    (hascii : ∀ call ∈ calls, call.IsAscii) (hin : ∀ call ∈ calls, call.InRange gFont scr)
    (hcount : ∀ call ∈ calls, call.Counted gFont) (m : Memory) :
    ∃ m', calls.foldlM (fun m call => call.draw scr.put gFont m) m = some m' ∧
      (∀ p ∈ scr.onScreen, scr.view m' p = (lastColor gFont calls p).getD (scr.view m p) ∧
        m' (scr.fb + BitVec.ofNat 64 (4 * scr.offset p + 3)) =
          m (scr.fb + BitVec.ofNat 64 (4 * scr.offset p + 3))) ∧
      ∀ a ∉ range scr.fb (4 * (scr.xAxis.toNat * scr.yAxis.toNat)), m' a = m a := by
  obtain ⟨m', hrun, hview, hframe⟩ :=
    draws_view hfit (fun call hmem => ⟨hascii call hmem, hin call hmem, hcount call hmem⟩) m
  refine ⟨m', hrun, fun p hp => ⟨hview hp, hframe (Screen.fourth_notMem hfit hp)⟩, fun a ha => ?_⟩
  exact hframe fun hcolor => ha (Screen.colorBytes_subset hcolor)

/-! ### Small screens -/

def smallScreen : Screen := ⟨0x80000000, 1024, 16, 16, 16, none⟩

/-- Every other row of a glyph is drawn. -/
def stripedFont : AsciiFont := ⟨fun _ => ⟨fun j => if j.val % 2 = 0 then 0xff else 0⟩⟩

theorem draw_canvas_smallScreen : ∃ m',
    [writeSquare 0 0 9 9 ⟨0, 0, 255⟩, printLine 0 0 ⟨0, 255, 0⟩ [0x48, 0x69], writePixel 5 2 ⟨255, 0, 0⟩].foldlM
        (fun m call => call.draw smallScreen.put stripedFont m) (fun _ => 0) = some m' ∧
      smallScreen.view m' (5, 2) = ⟨255, 0, 0⟩ ∧ smallScreen.view m' (5, 4) = ⟨0, 255, 0⟩ ∧
      smallScreen.view m' (5, 1) = ⟨0, 0, 255⟩ ∧ smallScreen.view m' (12, 1) = ⟨0, 0, 0⟩ := by
  have hpixel : (writePixel 5 2 ⟨255, 0, 0⟩).InRange stripedFont smallScreen := fun p hp => by
    have hp : (5, 2) = p := of_not_not fun hne => hp (if_neg hne)
    rw [← hp]
    exact ⟨by decide, by decide⟩
  have hsquare : (writeSquare 0 0 9 9 ⟨0, 0, 255⟩).InRange stripedFont smallScreen := fun p hp => by
    obtain ⟨-, hx, -, hy⟩ := of_not_not fun hnot => hp (if_neg hnot)
    exact ⟨lt_of_le_of_lt hx (by decide), lt_of_le_of_lt hy (by decide)⟩
  have hline : (printLine 0 0 ⟨0, 255, 0⟩ [0x48, 0x69]).InRange stripedFont smallScreen := fun p hp => by
    obtain ⟨-, -, hdot⟩ := of_not_not fun hnot => hp (if_neg hnot)
    obtain ⟨hlen, font, -, hrow⟩ := textDot_iff.1 hdot
    have hx : p.1 / 8 < 2 := hlen
    have hy : p.2 < 16 := font.lt_of_dot hrow
    have hx : p.1 < 16 := by omega
    exact ⟨hx, hy⟩
  have hcounted : (printLine 0 0 ⟨0, 255, 0⟩ [0x48, 0x69]).Counted stripedFont := fun i j hlen => by
    have hout : ¬ i / 8 < [0x48, (0x69 : BitVec 8)].length := Nat.not_lt.2 hlen
    rw [textDot, decide_eq_false hout, Bool.false_and]
  obtain ⟨m', hrun, hview, -⟩ := draw_canvas smallScreen (by unfold Screen.Fits; decide) stripedFont
    [writeSquare 0 0 9 9 ⟨0, 0, 255⟩, printLine 0 0 ⟨0, 255, 0⟩ [0x48, 0x69], writePixel 5 2 ⟨255, 0, 0⟩]
    (by simp [IsAscii])
    (List.forall_mem_cons.2 ⟨hsquare, List.forall_mem_cons.2 ⟨hline, List.forall_mem_singleton.2 hpixel⟩⟩)
    (List.forall_mem_cons.2 ⟨fun h => absurd h.1 (by decide),
      List.forall_mem_cons.2 ⟨hcounted, List.forall_mem_singleton.2 trivial⟩⟩)
    (fun _ => 0)
  have hat : ∀ p ∈ smallScreen.onScreen, smallScreen.view m' p = _ := fun p hp => (hview p hp).1
  refine ⟨m', hrun, (hat _ ⟨by decide, by decide⟩).trans rfl, (hat _ ⟨by decide, by decide⟩).trans rfl,
    (hat _ ⟨by decide, by decide⟩).trans rfl, (hat _ ⟨by decide, by decide⟩).trans rfl⟩

def onePixel : Screen := ⟨0x80000000, 4, 1, 1, 1, none⟩

def blankFont : AsciiFont := ⟨fun _ => ⟨fun _ => 0⟩⟩

/-- A rectangle without a pixel, whose columns are counted to `UINT32_MAX`: it is never done. -/
theorem writeSquare_never_returns :
    (writeSquare 0 1 0xffffffff 0 ⟨0, 0, 0⟩).InRange blankFont onePixel ∧
      ∀ m, (writeSquare 0 1 0xffffffff 0 ⟨0, 0, 0⟩).draw onePixel.put blankFont m = none := by
  constructor
  · intro p hp
    obtain ⟨-, -, hlo, hhi⟩ := of_not_not fun hnot => hp (if_neg hnot)
    exact absurd (hlo.trans hhi) (by decide)
  · intro m
    refine draw_eq_none fun hreturns => ?_
    exact (hreturns (by decide)).1 (by decide)

end MosaOS
