import MosaOS.Memory

/-!
# Fonts (`kernel/font.hpp`, `kernel/font.cpp`)
-/

namespace MosaOS
open ByteMem

structure MonoAsciiFont where
  row : Fin 16 → BitVec 8

namespace MonoAsciiFont

/-- The constructor copies `row_num` bytes. -/
def ofFile (m : Memory) (monoFont : SizeT) : MonoAsciiFont := ⟨fun i => m (monoFont + BitVec.ofNat 64 i)⟩

/-- The pixel in column `x` of row `y`. -/
def dot (f : MonoAsciiFont) (x y : ℕ) : Bool :=
  if h : y < 16 then ((f.row ⟨y, h⟩ >>> (7 - x)) &&& 1) == 1 else false

theorem lt_of_dot (f : MonoAsciiFont) {x y : ℕ} (h : f.dot x y = true) : y < 16 := by
  by_contra hy
  rw [dot, dif_neg hy] at h
  exact Bool.false_ne_true h

/-- `none` where the source halts for good. -/
def isDraw (f : MonoAsciiFont) (x y : ℕ) : Option Bool :=
  if x < 8 ∧ y < 16 then some (f.dot x y) else none

theorem isDraw_of_lt (f : MonoAsciiFont) {x y : ℕ} (hx : x < 8) (hy : y < 16) :
    f.isDraw x y = some (f.dot x y) := if_pos ⟨hx, hy⟩

end MonoAsciiFont

structure AsciiFont where
  font : Fin 128 → MonoAsciiFont

namespace AsciiFont

/-- The bytes of the file that the constructor reads. -/
def fileBytes : ℕ := 128 * 16

/-- The constructor. `font_file` counts in `uint64_t`, two for each glyph. -/
def ofFile (m : Memory) (fontFile : SizeT) : AsciiFont :=
  ⟨fun i => .ofFile m (fontFile + BitVec.ofNat 64 (8 * (i * 2)))⟩

theorem ofFile_congr {m m' : Memory} {fontFile : SizeT} (h : Set.EqOn m' m (range fontFile fileBytes)) :
    ofFile m' fontFile = ofFile m fontFile := by
  have hrow : ∀ (i : Fin 128) (y : Fin 16), m' (fontFile + BitVec.ofNat 64 (8 * (i * 2)) + BitVec.ofNat 64 y) =
      m (fontFile + BitVec.ofNat 64 (8 * (i * 2)) + BitVec.ofNat 64 y) := by
    intro i y
    have hi := i.isLt
    have hy := y.isLt
    have hfile : fileBytes = 2048 := rfl
    rw [add_ofNat]
    exact h ((add_mem_range (by omega)).2 (by omega))
  exact congrArg mk (funext fun i => congrArg MonoAsciiFont.mk (funext fun y => hrow i y))

/-- `none` outside the entries that the constructor fills in. -/
def getFont (f : AsciiFont) (c : ℤ) : Option MonoAsciiFont :=
  if h : 0 ≤ c ∧ c < 128 then some (f.font ⟨c.toNat, by omega⟩) else none

theorem getFont_ofNat (f : AsciiFont) {c : ℕ} (h : c < 128) : f.getFont c = some (f.font ⟨c, h⟩) := by
  have hc : (0 : ℤ) ≤ c ∧ (c : ℤ) < 128 := by omega
  rw [getFont, dif_pos hc]
  rfl

end AsciiFont
end MosaOS
