import MosaOS.Bmp
import MosaOS.Font
import MosaOS.Lib.Loop
import Mathlib.Data.List.ProdSigma

/-!
# Screens (`kernel/screen.hpp`, `kernel/screen.cpp`)

`writePixel` is all that the drawing functions do to a screen, and they read no pixel. So they are given
over any function `put` in its place; `draw_eq` says which pixels each of them goes through, in which
order, and when it returns at all.
-/

namespace MosaOS
open Loop ByteMem

/-- The two screens that `InitializeScreen` builds. -/
inductive ScreenPtr
  | framebufferBuf
  | backbufferBuf
deriving DecidableEq, Repr

structure Screen where
  fb : SizeT
  fbSize : SizeT
  xAxis : BitVec 32
  yAxis : BitVec 32
  ppsl : BitVec 32
  next : Option ScreenPtr
deriving DecidableEq, Repr

namespace Screen

/-- The index of a pixel, a `uint32_t`. -/
def index (scr : Screen) (x y : BitVec 32) : BitVec 32 := y * scr.xAxis + x

def writePixel (scr : Screen) (x y : BitVec 32) (c : Color) (m : Memory) : Memory :=
  let dst : SizeT := scr.fb + 4 * (scr.index x y).setWidth 64
  Function.update (Function.update (Function.update m dst c.b) (dst + 1) c.g) (dst + 2) c.r

/-- `writePixel` as the drawing functions call it. -/
def put (scr : Screen) (x y : BitVec 32) (c : Color) (m : Memory) : Option Memory :=
  some (scr.writePixel x y c m)

section
variable {σ : Type} (put : BitVec 32 → BitVec 32 → Color → σ → Option σ)

def writeSquare (x1 y1 x2 y2 : BitVec 32) (c : Color) (s : σ) : Option σ :=
  upTo x2 (fun i => upTo y2 (fun j => put i j c) y1) x1 s

/-- `c` is a `char`, which is signed. -/
def writeAscii (gFont : AsciiFont) (x y : BitVec 32) (color : Color) (c : BitVec 8) (s : σ) :
    Option σ := do
  let font ← gFont.getFont c.toInt
  (List.range 8).foldlM (fun s i => (List.range 16).foldlM (fun s j => do
    if ← font.isDraw i j then put (x + BitVec.ofNat 32 i) (y + BitVec.ofNat 32 j) color s
    else some s) s) s

/-- The bytes of `line` before its terminator. Their number is an `int`. -/
def printLine (gFont : AsciiFont) (x y : BitVec 32) (c : Color) (line : List (BitVec 8)) (s : σ) :
    Option σ :=
  let len : BitVec 32 := BitVec.ofNat 32 line.length
  (List.range len.toInt.toNat).foldlM (fun s i =>
    writeAscii put gFont (x + BitVec.ofNat 32 (i * 8)) y c (line.getD i 0) s) s

/-- Width and height are cast to `int`. The picture is read from `m`, which is not drawn on. -/
def printBmp (x y : BitVec 32) (m : Memory) (bmp : BitMapImage) (s : σ) : Option σ :=
  (List.range bmp.width.toInt.toNat).foldlM (fun s i =>
    (List.range bmp.height.toInt.toNat).foldlM (fun s j =>
      put (BitVec.ofNat 32 i + x) (BitVec.ofNat 32 j + y)
        (bmp.getColor m (BitVec.ofNat 32 i) (BitVec.ofNat 32 j)) s) s) s

end
end Screen

inductive DrawCall
  | writePixel (x y : BitVec 32) (c : Color)
  | writeSquare (x1 y1 x2 y2 : BitVec 32) (c : Color)
  | printLine (x y : BitVec 32) (c : Color) (line : List (BitVec 8))
  | printBmp (x y : BitVec 32) (m : Memory) (bmp : BitMapImage)

def DrawCall.draw {σ : Type} (put : BitVec 32 → BitVec 32 → Color → σ → Option σ) (gFont : AsciiFont)
    (s : σ) : DrawCall → Option σ
  | writePixel x y c => put x y c s
  | writeSquare x1 y1 x2 y2 c => Screen.writeSquare put x1 y1 x2 y2 c s
  | printLine x y c line => Screen.printLine put gFont x y c line s
  | printBmp x y m bmp => Screen.printBmp put x y m bmp s

/-! ### The pixels of a call -/

structure Pixel where
  x : BitVec 32
  y : BitVec 32
  color : Color
deriving DecidableEq, Repr

def squarePixels (x1 y1 x2 y2 : BitVec 32) (c : Color) : List Pixel :=
  (count x1 x2).flatMap fun i => (count y1 y2).map fun j => ⟨i, j, c⟩

def asciiPixels (font : MonoAsciiFont) (x y : BitVec 32) (color : Color) : List Pixel :=
  (List.range 8).flatMap fun i => ((List.range 16).filter (font.dot i)).map fun j =>
    ⟨x + BitVec.ofNat 32 i, y + BitVec.ofNat 32 j, color⟩

/-- How many bytes `printLine` draws. -/
def intLen (line : List (BitVec 8)) : ℕ := (BitVec.ofNat 32 line.length).toInt.toNat

def linePixels (gFont : AsciiFont) (x y : BitVec 32) (c : Color) (line : List (BitVec 8)) : List Pixel :=
  (List.range (intLen line)).flatMap fun i =>
    (gFont.getFont (line.getD i 0).toInt).elim [] fun font =>
      asciiPixels font (x + BitVec.ofNat 32 (i * 8)) y c

def bmpPixels (x y : BitVec 32) (m : Memory) (bmp : BitMapImage) : List Pixel :=
  (List.range bmp.width.toInt.toNat).flatMap fun i => (List.range bmp.height.toInt.toNat).map fun j =>
    ⟨BitVec.ofNat 32 i + x, BitVec.ofNat 32 j + y,
      bmp.getColor m (BitVec.ofNat 32 i) (BitVec.ofNat 32 j)⟩

theorem mem_squarePixels {x1 y1 x2 y2 : BitVec 32} {c : Color} {p : Pixel} :
    p ∈ squarePixels x1 y1 x2 y2 c ↔ (x1 ≤ p.x ∧ p.x ≤ x2) ∧ (y1 ≤ p.y ∧ p.y ≤ y2) ∧ p.color = c := by
  unfold squarePixels
  constructor
  · intro hp
    obtain ⟨i, hi, hp⟩ := List.mem_flatMap.1 hp
    obtain ⟨j, hj, rfl⟩ := List.mem_map.1 hp
    exact ⟨mem_count.1 hi, mem_count.1 hj, rfl⟩
  · obtain ⟨x, y, color⟩ := p
    rintro ⟨hx, hy, rfl⟩
    exact List.mem_flatMap.2 ⟨x, mem_count.2 hx, List.mem_map.2 ⟨y, mem_count.2 hy, rfl⟩⟩

theorem mem_bmpPixels {x y : BitVec 32} {m : Memory} {bmp : BitMapImage} {p : Pixel} :
    p ∈ bmpPixels x y m bmp ↔ ∃ i < bmp.width.toInt.toNat, ∃ j < bmp.height.toInt.toNat,
      p = ⟨BitVec.ofNat 32 i + x, BitVec.ofNat 32 j + y,
        bmp.getColor m (BitVec.ofNat 32 i) (BitVec.ofNat 32 j)⟩ := by
  unfold bmpPixels
  constructor
  · intro hp
    obtain ⟨i, hi, hp⟩ := List.mem_flatMap.1 hp
    obtain ⟨j, hj, rfl⟩ := List.mem_map.1 hp
    exact ⟨i, List.mem_range.1 hi, j, List.mem_range.1 hj, rfl⟩
  · rintro ⟨i, hi, j, hj, rfl⟩
    exact List.mem_flatMap.2 ⟨i, List.mem_range.2 hi, List.mem_map.2 ⟨j, List.mem_range.2 hj, rfl⟩⟩

namespace DrawCall
variable {σ : Type} {put : BitVec 32 → BitVec 32 → Color → σ → Option σ} {gFont : AsciiFont} {s : σ}

def pixels (gFont : AsciiFont) : DrawCall → List Pixel
  | writePixel x y c => [⟨x, y, c⟩]
  | writeSquare x1 y1 x2 y2 c => squarePixels x1 y1 x2 y2 c
  | printLine x y c line => linePixels gFont x y c line
  | printBmp x y m bmp => bmpPixels x y m bmp

/-- A loop up to `UINT32_MAX` never ends, and there is no glyph for a negative `char`. -/
def Returns : DrawCall → Prop
  | writeSquare x1 y1 x2 y2 _ => x1 ≤ x2 →
      x2 ≠ BitVec.allOnes 32 ∧ (y1 ≤ y2 → y2 ≠ BitVec.allOnes 32)
  | printLine _ _ _ line => ∀ i < intLen line, (line.getD i 0).toNat < 128
  | _ => True

theorem writeSquare_eq {x1 y1 x2 y2 : BitVec 32} {c : Color}
    (h : (writeSquare x1 y1 x2 y2 c).Returns) : Screen.writeSquare put x1 y1 x2 y2 c s =
      (squarePixels x1 y1 x2 y2 c).foldlM (fun s p => put p.x p.y p.color s) s := by
  unfold Screen.writeSquare squarePixels
  rw [upTo_eq_run (fun hle => (h hle).1), Run.flatMap]
  refine Run.congr fun s i hi => ?_
  have hle : x1 ≤ x2 := BitVec.le_trans (mem_count.1 hi).1 (mem_count.1 hi).2
  rw [upTo_eq_run (h hle).2, List.foldlM_map]

theorem writeSquare_eq_none {x1 y1 x2 y2 : BitVec 32} {c : Color}
    (h : ¬ (writeSquare x1 y1 x2 y2 c).Returns) : Screen.writeSquare put x1 y1 x2 y2 c s = none := by
  simp only [Returns, Classical.not_imp, not_and] at h
  obtain ⟨hle, hforever⟩ := h
  refine upTo_eq_none hle ?_
  by_cases hx : x2 = BitVec.allOnes 32
  · exact Or.inl hx
  · obtain ⟨hley, hy⟩ := hforever hx
    exact Or.inr (upTo_eq_none hley (Or.inl (not_not.1 hy)))

theorem writeAscii_eq (font : MonoAsciiFont) {x y : BitVec 32} {color : Color} {c : BitVec 8}
    (h : gFont.getFont c.toInt = some font) : Screen.writeAscii put gFont x y color c s =
      (asciiPixels font x y color).foldlM (fun s p => put p.x p.y p.color s) s := by
  unfold Screen.writeAscii asciiPixels
  rw [h, Run.flatMap]
  refine Run.congr fun s i hi => ?_
  rw [List.foldlM_map, List.foldlM_filter]
  refine Run.congr fun s j hj => ?_
  rw [MonoAsciiFont.isDraw_of_lt _ (List.mem_range.1 hi) (List.mem_range.1 hj)]
  rfl

theorem printBmp_eq {x y : BitVec 32} {m : Memory} {bmp : BitMapImage} :
    Screen.printBmp put x y m bmp s =
      (bmpPixels x y m bmp).foldlM (fun s p => put p.x p.y p.color s) s := by
  unfold Screen.printBmp bmpPixels
  rw [Run.flatMap]
  refine Run.congr fun s i _ => ?_
  rw [List.foldlM_map]

theorem getFont_of_lt (gFont : AsciiFont) {c : BitVec 8} (h : c.toNat < 128) :
    gFont.getFont c.toInt = some (gFont.font ⟨c.toNat, h⟩) := by
  rw [BitVec.toInt_eq_toNat_of_lt (by omega), AsciiFont.getFont_ofNat _ h]

theorem getFont_of_ge (gFont : AsciiFont) {c : BitVec 8} (h : ¬ c.toNat < 128) :
    gFont.getFont c.toInt = none := by
  have hneg : c.toInt < 0 := by
    rw [BitVec.toInt_eq_toNat_cond, if_neg (by omega)]
    omega
  rw [AsciiFont.getFont, dif_neg (by omega)]

theorem printLine_eq {x y : BitVec 32} {c : Color} {line : List (BitVec 8)}
    (h : (printLine x y c line).Returns) : Screen.printLine put gFont x y c line s =
      (linePixels gFont x y c line).foldlM (fun s p => put p.x p.y p.color s) s := by
  unfold Screen.printLine linePixels
  rw [Run.flatMap]
  refine Run.congr fun s i hi => ?_
  have hfont := getFont_of_lt gFont (h i (List.mem_range.1 hi))
  rw [writeAscii_eq _ hfont, hfont]
  rfl

theorem printLine_eq_none {x y : BitVec 32} {c : Color} {line : List (BitVec 8)}
    (h : ¬ (printLine x y c line).Returns) : Screen.printLine put gFont x y c line s = none := by
  simp only [Returns, not_forall] at h
  obtain ⟨i, hi, hbyte⟩ := h
  cases hrun : Screen.printLine put gFont x y c line s with
  | none => rfl
  | some s' =>
    have hmem : i ∈ List.range (BitVec.ofNat 32 line.length).toInt.toNat := List.mem_range.2 hi
    obtain ⟨t, t', hstep⟩ := Run.exists_step hmem hrun
    rw [Screen.writeAscii, getFont_of_ge gFont hbyte] at hstep
    cases hstep

theorem printLine_returns {x y : BitVec 32} {c : Color} {text : List (BitVec 8)}
    (h : ∀ b ∈ text, b.toNat < 128) : (printLine x y c text).Returns := by
  intro i _
  rw [List.getD_eq_getElem?_getD]
  cases hget : text[i]? with
  | none => exact (by decide : (0 : BitVec 8).toNat < 128)
  | some b => exact h b (List.mem_of_getElem? hget)

theorem draw_eq {call : DrawCall} (h : call.Returns) : call.draw put gFont s =
    (call.pixels gFont).foldlM (fun s p => put p.x p.y p.color s) s := by
  cases call with
  | writePixel x y c =>
    show put x y c s = (put x y c s).bind fun s => some s
    rw [Option.bind_fun_some]
  | writeSquare x1 y1 x2 y2 c => exact writeSquare_eq h
  | printLine x y c line => exact printLine_eq h
  | printBmp x y m bmp => exact printBmp_eq

theorem draw_eq_none {call : DrawCall} (h : ¬ call.Returns) : call.draw put gFont s = none := by
  cases call with
  | writePixel x y c => exact absurd trivial h
  | writeSquare x1 y1 x2 y2 c => exact writeSquare_eq_none h
  | printLine x y c line => exact printLine_eq_none h
  | printBmp x y m bmp => exact absurd trivial h

end DrawCall

open DrawCall

/-! ### The calls that `writeSquare` makes -/

theorem writeSquare_ne_run {x1 y1 x2 y2 : BitVec 32} {c : Color}
    (h : ¬ (writeSquare x1 y1 x2 y2 c).Returns) (pairs : List (BitVec 32 × BitVec 32)) :
    ¬ ∀ (σ : Type) (put : BitVec 32 → BitVec 32 → Color → σ → Option σ) (s : σ),
      Screen.writeSquare put x1 y1 x2 y2 c s = pairs.foldlM (fun s p => put p.1 p.2 c s) s := by
  intro hcalls
  obtain ⟨u, hu⟩ := Run.returns (fun u _ => ⟨u, rfl⟩) pairs ()
  have hnone := hcalls Unit (fun _ _ _ u => some u) ()
  rw [writeSquare_eq_none h, hu] at hnone
  cases hnone

/-- `writeSquare` is done after one `writePixel` for each pixel of the rectangle exactly when no counter
of it has to pass `UINT32_MAX`; it never is done otherwise. -/
theorem writeSquare_visits_iff (x1 y1 x2 y2 : BitVec 32) (c : Color) :
    (∃ pairs : List (BitVec 32 × BitVec 32),
      (∀ (σ : Type) (put : BitVec 32 → BitVec 32 → Color → σ → Option σ) (s : σ),
        Screen.writeSquare put x1 y1 x2 y2 c s = pairs.foldlM (fun s p => put p.1 p.2 c s) s) ∧
      pairs.Nodup ∧ ∀ p, p ∈ pairs ↔ (x1 ≤ p.1 ∧ p.1 ≤ x2) ∧ y1 ≤ p.2 ∧ p.2 ≤ y2) ↔
    (x1 ≤ x2 → x2 ≠ BitVec.allOnes 32 ∧ (y1 ≤ y2 → y2 ≠ BitVec.allOnes 32)) := by
  constructor
  · rintro ⟨pairs, hcalls, -, -⟩
    by_contra hforever
    exact writeSquare_ne_run (c := c) hforever pairs hcalls
  · intro hends
    refine ⟨count x1 x2 ×ˢ count y1 y2, fun σ put s => ?_,
      (nodup_count x1 x2).product (nodup_count y1 y2), fun p => ?_⟩
    · rw [writeSquare_eq (c := c) hends]
      show _ = ((count x1 x2).flatMap fun i => (count y1 y2).map (Prod.mk i)).foldlM _ s
      unfold squarePixels
      rw [Run.flatMap, Run.flatMap]
      refine Run.congr fun s i _ => ?_
      rw [List.foldlM_map, List.foldlM_map]
    · obtain ⟨x, y⟩ := p
      rw [List.mem_product, mem_count, mem_count]

/-- A single column whose last row is the last of all: the row counter steps to 0 and goes on. -/
theorem writeSquare_forever : ¬ ∃ pairs : List (BitVec 32 × BitVec 32),
    (∀ (σ : Type) (put : BitVec 32 → BitVec 32 → Color → σ → Option σ) (s : σ),
      Screen.writeSquare put 0 0xffffffff 0 0xffffffff ⟨0, 0, 0⟩ s =
        pairs.foldlM (fun s p => put p.1 p.2 ⟨0, 0, 0⟩ s) s) ∧
    pairs.Nodup ∧ ∀ p, p ∈ pairs ↔
      ((0 : BitVec 32) ≤ p.1 ∧ p.1 ≤ 0) ∧ (0xffffffff : BitVec 32) ≤ p.2 ∧ p.2 ≤ 0xffffffff := by
  rintro ⟨pairs, hcalls, -, -⟩
  refine writeSquare_ne_run (fun hends => ?_) pairs hcalls
  exact (hends (BitVec.le_refl _)).2 (BitVec.le_refl _) rfl

/-! ### The glyphs that `printLine` looks up -/

/-- The arguments of `getFont`, in the order of the calls. -/
def lookups (line : List (BitVec 8)) : List ℤ :=
  (List.range (intLen line)).map fun i => (line.getD i 0).toInt

theorem lookup_iff (b : BitVec 8) : 0 ≤ b.toInt ∧ b.toInt < 128 ↔ b.toNat < 128 := by
  have := b.isLt
  rw [BitVec.toInt_eq_toNat_cond]
  split <;> omega

/-- `printLine` looks up an entry that `AsciiFont` has filled in at every byte, whatever it draws,
exactly when no byte it draws has its sign bit set. -/
theorem lookups_inFont_iff (gFont : AsciiFont) (x y : BitVec 32) (c : Color) (line : List (BitVec 8)) :
    ((∀ k ∈ lookups line, 0 ≤ k ∧ k < 128) ↔ ∀ i < intLen line, (line.getD i 0).toNat < 128) ∧
    ∀ (σ : Type) (put : BitVec 32 → BitVec 32 → Color → σ → σ) (s : σ),
      (∃ s', Screen.printLine (fun x y c s => some (put x y c s)) gFont x y c line s = some s') ↔
        ∀ k ∈ lookups line, 0 ≤ k ∧ k < 128 := by
  have hiff : (∀ k ∈ lookups line, 0 ≤ k ∧ k < 128) ↔ ∀ i < intLen line, (line.getD i 0).toNat < 128 := by
    unfold lookups
    rw [List.forall_mem_map]
    simp only [List.mem_range, lookup_iff]
  refine ⟨hiff, fun σ put s => ?_⟩
  rw [hiff]
  constructor
  · rintro ⟨s', hrun⟩
    by_contra hbyte
    rw [printLine_eq_none (x := x) (y := y) (c := c) hbyte] at hrun
    cases hrun
  · intro hbyte
    rw [printLine_eq (x := x) (y := y) (c := c) hbyte]
    exact Run.returns (fun s (p : Pixel) => ⟨put p.x p.y p.color s, rfl⟩) _ s

/-- The byte `0x80` is the index -128. -/
theorem lookups_negative : (0 : BitVec 8) ∉ ([0x80] : List (BitVec 8)) ∧
    ¬ ∀ k ∈ lookups [0x80], 0 ≤ k ∧ k < 128 := by
  refine ⟨by decide, fun hall => ?_⟩
  exact absurd (hall (-128) (by decide)).1 (by decide)

end MosaOS
