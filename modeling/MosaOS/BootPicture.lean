import MosaOS.KernelBoot

/-!
# The picture on the screen at the end of the boot

`bootPicture` gives every point its colour, without a word of what was drawn when: a line of text is never
erased by the next one, whose square begins where the dots of the line end (`textCalls_layer`). It is made
from the dots of the characters and the colours of a picture, wherever these come from.
-/

namespace MosaOS
open ByteMem Layer BitMapImage Kernel

/-- Whether a character has a dot in a column and a row. -/
abbrev Glyphs := BitVec 8 → ℕ → ℕ → Bool

section
variable (glyphs : Glyphs)

/-- Line number `l` of a text has a dot at `p`. -/
def lineDot (p : Point) (line : List (BitVec 8)) (l : ℕ) : Prop :=
  16 * l ≤ p.2 ∧ p.2 < 16 * l + 16 ∧ p.1 / 8 < line.length ∧
    glyphs (line.getD (p.1 / 8) 0) (p.1 % 8) (p.2 - 16 * l) = true

instance (p : Point) (line : List (BitVec 8)) (l : ℕ) : Decidable (lineDot glyphs p line l) :=
  inferInstanceAs (Decidable (_ ∧ _))

/-- The square that is cleared for it, which covers one row and one column more than its characters. -/
def lineBox (p : Point) (line : List (BitVec 8)) (l : ℕ) : Prop :=
  p.1 ≤ 8 * line.length ∧ 16 * l ≤ p.2 ∧ p.2 ≤ 16 * l + 16

instance (p : Point) (line : List (BitVec 8)) (l : ℕ) : Decidable (lineBox p line l) :=
  inferInstanceAs (Decidable (_ ∧ _))

/-- Black on white where the text stands. -/
def textLayer (lines : List (List (BitVec 8))) : Layer Point Color := fun p =>
  if ∃ e ∈ lines.zipIdx, lineDot glyphs p e.1 e.2 then some ⟨0, 0, 0⟩
  else if ∃ e ∈ lines.zipIdx, lineBox p e.1 e.2 then some white
  else none

/-- The two squares on the white screen. -/
def background (p : Point) : Color :=
  if 150 ≤ p.1 ∧ p.1 ≤ 170 ∧ 150 ≤ p.2 ∧ p.2 ≤ 230 then ⟨0, 0, 0xff⟩
  else if 100 ≤ p.1 ∧ p.1 ≤ 200 ∧ 100 ≤ p.2 ∧ p.2 ≤ 200 then ⟨0, 0xff, 0⟩
  else white

/-- The picture `pic` of `w` by `h` points over the text. -/
def bootPicture (pic : ℕ → ℕ → Color) (w h : ℕ) (p : Point) : Color :=
  if 200 ≤ p.1 ∧ p.1 < 200 + w ∧ 200 ≤ p.2 ∧ p.2 < 200 + h then pic (p.1 - 200) (p.2 - 200)
  else (textLayer glyphs (bootLines.map cString) p).getD (background p)

end

def AsciiFont.glyphs (gFont : AsciiFont) : Glyphs := fun c x y =>
  (gFont.getFont c.toInt).elim false fun font => font.dot x y

/-- The colours that `printBmp` draws. -/
def BitMapImage.picture (m : Memory) (bmp : BitMapImage) (x y : ℕ) : Color :=
  bmp.getColor m (BitVec.ofNat 32 x) (BitVec.ofNat 32 y)

variable {gFont : AsciiFont} {glyphs : Glyphs} {p : Point} {line : List (BitVec 8)} {lines : List (List (BitVec 8))}
  {l : ℕ}

/-! ### Lines of text -/

theorem lineDot_glyphs : lineDot gFont.glyphs p line l ↔ 16 * l ≤ p.2 ∧ textDot gFont line p.1 (p.2 - 16 * l) := by
  constructor
  · rintro ⟨htop, -, hcol, hdot⟩
    exact ⟨htop, Bool.and_eq_true_iff.2 ⟨decide_eq_true hcol, hdot⟩⟩
  · rintro ⟨htop, htext⟩
    obtain ⟨-, font, -, hfont⟩ := DrawCall.textDot_iff.1 htext
    obtain ⟨hcol, hdot⟩ := Bool.and_eq_true_iff.1 htext
    have hrow := font.lt_of_dot hfont
    exact ⟨htop, by omega, of_decide_eq_true hcol, hdot⟩

theorem lineCalls_layer (hwidth : 8 * line.length < 2 ^ 32) (hrows : 16 * l + 16 < 2 ^ 32) :
    lastColor gFont (lineCalls l line) p =
      if lineDot gFont.glyphs p line l then some ⟨0, 0, 0⟩ else if lineBox p line l then some white else none := by
  have htop : (BitVec.ofNat 32 (16 * l)).toNat = 16 * l := toNat_ofNat_of_lt (by omega)
  have hbottom : (BitVec.ofNat 32 (16 * l) + 16).toNat = 16 * l + 16 := by
    have hadd := DrawCall.toNat_add_ofNat (x := BitVec.ofNat 32 (16 * l)) (k := 16) (by omega)
    rwa [htop] at hadd
  have hright : (lineWidth line).toNat = 8 * line.length := by
    rw [lineWidth, Nat.mul_comm]
    exact toNat_ofNat_of_lt hwidth
  have hsplit : lineCalls l line = [DrawCall.writeSquare 0 (BitVec.ofNat 32 (16 * l)) (lineWidth line)
      (BitVec.ofNat 32 (16 * l) + 16) white] ++ [.printLine 0 (BitVec.ofNat 32 (16 * l)) ⟨0, 0, 0⟩ line] := rfl
  rw [hsplit, lastColor, List.map_append, stack_append, List.map_singleton, List.map_singleton, stack_singleton,
    stack_singleton]
  have hzero : BitVec.toNat (0 : BitVec 32) = 0 := rfl
  simp only [DrawCall.shape, htop, hbottom, hright, hzero, Nat.zero_le, true_and, Nat.sub_zero, ← lineDot_glyphs]
  by_cases hdot : lineDot gFont.glyphs p line l
  · rw [if_pos hdot, if_pos hdot, Option.some_or]
  · rw [if_neg hdot, if_neg hdot, Option.none_or]
    rfl

/-- The dots of a line stay when the next one is printed, as its square begins below them. -/
theorem textCalls_layer (hwidth : ∀ line ∈ lines, 8 * line.length < 2 ^ 32) (hrows : 16 * lines.length < 2 ^ 32) :
    lastColor gFont (textCalls lines) = textLayer gFont.glyphs lines := by
  funext p
  induction lines using List.reverseRecOn with
  | nil => rfl
  | append_singleton lines line ih =>
    rw [List.length_append, List.length_singleton] at hrows
    have hline : 8 * line.length < 2 ^ 32 := hwidth line (by simp)
    have ih := ih (fun line hmem => hwidth line (List.mem_append_left _ hmem)) (by omega)
    have hstack : lastColor gFont (textCalls (lines ++ [line])) p =
        (lastColor gFont (lineCalls lines.length line) p).or (lastColor gFont (textCalls lines) p) := by
      rw [textCalls_snoc, lastColor, List.map_append, stack_append]
      rfl
    rw [hstack, lineCalls_layer hline (by omega), ih]
    simp only [textLayer, List.zipIdx_append, List.mem_append, List.zipIdx_singleton, Nat.zero_add, List.mem_singleton,
      or_and_right, exists_or, exists_eq_left]
    by_cases hdot : lineDot gFont.glyphs p line lines.length
    · simp [hdot]
    · by_cases hbox : lineBox p line lines.length
      · have hnone : ¬ ∃ e ∈ lines.zipIdx, lineDot gFont.glyphs p e.1 e.2 := by
          rintro ⟨e, he, -, hold, -⟩
          have hlt := List.snd_lt_of_mem_zipIdx he
          have htop := hbox.2.1
          omega
        simp [hdot, hbox, hnone]
      · simp only [hdot, hbox, or_false, if_false, Option.none_or]

/-! ### The whole picture -/

theorem squareCalls_background : paint (lastColor gFont squareCalls) (fun _ => white) = background := by
  funext p
  have hsplit : squareCalls = [DrawCall.writeSquare 100 100 200 200 ⟨0, 0xff, 0⟩] ++
      [.writeSquare 150 150 170 230 ⟨0, 0, 0xff⟩] := rfl
  rw [paint, hsplit, lastColor, List.map_append, stack_append, List.map_singleton, List.map_singleton, stack_singleton,
    stack_singleton]
  simp only [DrawCall.shape, BitVec.reduceToNat, background]
  split
  · rfl
  · split
    · rfl
    · rfl

theorem bootLines_short {line : List (BitVec 8)} (h : line ∈ bootLines.map cString) : ShortText line := by
  simp only [bootLines, List.map_cons, List.map_nil, List.mem_cons, List.not_mem_nil, or_false] at h
  rcases h with rfl | rfl | rfl | rfl | rfl | rfl | rfl | rfl | rfl
  all_goals simp [ShortText, cString]

/-- What the drawing calls before `copyScreen` make together. -/
theorem bootCalls_picture (m : Memory) (bmp : SizeT) :
    paint (lastColor gFont (bootCalls m bmp)) (fun _ => white) =
      bootPicture gFont.glyphs ((ofFile m bmp).picture m) (ofFile m bmp).width.toNat (ofFile m bmp).height.toNat := by
  have htext : lastColor gFont (textCalls (bootLines.map cString)) =
      textLayer gFont.glyphs (bootLines.map cString) :=
    textCalls_layer (fun line hmem => by have := (bootLines_short hmem).1; omega) (by simp [bootLines])
  have hpicture : lastColor gFont [.printBmp 200 200 m (ofFile m bmp)] =
      (DrawCall.printBmp 200 200 m (ofFile m bmp)).shape gFont := funext fun _ => stack_singleton
  rw [bootCalls, lastColor_append, lastColor_append, squareCalls_background, htext, hpicture]
  funext p
  simp only [paint, DrawCall.shape, BitVec.reduceToNat, bootPicture]
  split
  · rfl
  · rfl

end MosaOS
