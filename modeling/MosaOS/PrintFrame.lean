import MosaOS.Canvas
import MosaOS.Console

/-!
# What `print` does to the other lines (`kernel/kernel.cpp`)

The rectangle that `print` draws first goes to the row `y + 16` and the column `8 * strlen(line)`, both
included: it is a row higher and a column wider than the text. `print_frame_iff` says on which screens
that changes nothing.
-/

namespace MosaOS
open ByteMem Layer Screen DrawCall

/-- The rows and columns of a line of text. -/
def textArea (y : BitVec 32) (line : List (BitVec 8)) : Set Point :=
  {p | p.1 < 8 * line.length ∧ y.toNat ≤ p.2 ∧ p.2 < y.toNat + 16}

def white : Color := ⟨0xff, 0xff, 0xff⟩

/-- The rectangle of `print` writes the pixel at `p`. -/
def SquareHits (scr : Screen) (y : BitVec 32) (line : List (BitVec 8)) (p : Point) : Prop :=
  ∃ i ≤ 8 * line.length, ∃ j ≤ 16, scr.Hits (BitVec.ofNat 32 i) (y + BitVec.ofNat 32 j) p

/-- A dot of the text of `print` writes it. -/
def TextHits (scr : Screen) (gFont : AsciiFont) (y : BitVec 32) (line : List (BitVec 8)) (p : Point) :
    Prop :=
  ∃ i j, textDot gFont line i j = true ∧ scr.Hits (BitVec.ofNat 32 i) (y + BitVec.ofNat 32 j) p

/-- The pixels outside the line that `print` writes have the colours it gives them. -/
structure PrintKeeps (scr : Screen) (gFont : AsciiFont) (con : Console) (line : List (BitVec 8))
    (m : Memory) : Prop where
  text : ∀ p ∈ scr.onScreen, p ∉ textArea con.printY line → TextHits scr gFont con.printY line p →
    scr.view m p = ⟨con.printC, 0, 0⟩
  square : ∀ p ∈ scr.onScreen, p ∉ textArea con.printY line → ¬ TextHits scr gFont con.printY line p →
    SquareHits scr con.printY line p → scr.view m p = white

variable {scr : Screen} {gFont : AsciiFont} {con : Console} {line : List (BitVec 8)} {p : Point}
  {m m' : Memory} {y : BitVec 32} {c : Color}

/-! ### Pixels of one colour -/

def hitLayer (scr : Screen) (q : Pixel) : Layer Point Color :=
  fun p => if scr.Hits q.x q.y p then some q.color else none

theorem put_view {ps : List Pixel}
    (hrun : ps.foldlM (fun m (q : Pixel) => scr.put q.x q.y q.color m) m = some m') (p : Point) :
    scr.view m' p = paint (stack (ps.map (hitLayer scr))) (scr.view m) p := by
  have hview : Set.EqOn (scr.view m') (paint (stack (ps.map (hitLayer scr))) (scr.view m)) Set.univ :=
    Layer.run (fun m₁ q m₂ _ hput => by
      cases hput
      intro p _
      rw [view_writePixel, paint, hitLayer]
      split
      · rfl
      · rfl) hrun
  exact hview (Set.mem_univ p)

/-- After pixels of one colour are written, the places of these have it. -/
theorem put_view_color {ps : List Pixel} (hcolor : ∀ q ∈ ps, q.color = c)
    (hrun : ps.foldlM (fun m (q : Pixel) => scr.put q.x q.y q.color m) m = some m') :
    ((∃ q ∈ ps, scr.Hits q.x q.y p) → scr.view m' p = c) ∧
      ((¬ ∃ q ∈ ps, scr.Hits q.x q.y p) → scr.view m' p = scr.view m p) := by
  rw [put_view hrun, paint]
  constructor
  · rintro ⟨q, hq, hhit⟩
    have hsome : hitLayer scr q p ≠ none := by
      rw [hitLayer, if_pos hhit]
      exact Option.some_ne_none _
    rw [stack_eq_some (v := c) (fun l hl v hv => ?_) ⟨_, List.mem_map_of_mem hq, hsome⟩]
    · rfl
    · obtain ⟨q', hq', rfl⟩ := List.mem_map.1 hl
      unfold hitLayer at hv
      split at hv
      · rw [← hcolor q' hq']
        exact (Option.some.inj hv).symm
      · cases hv
  · intro hmiss
    have hnone : stack (ps.map (hitLayer scr)) p = none := by
      refine stack_eq_none.2 fun l hl => ?_
      obtain ⟨q, hq, rfl⟩ := List.mem_map.1 hl
      exact if_neg fun hhit => hmiss ⟨q, hq, hhit⟩
    rw [hnone]
    rfl

/-! ### A line -/

section
variable (hwidth : 8 * line.length < scr.xAxis.toNat)
include hwidth

theorem toNat_lineWidth : (lineWidth line).toNat = 8 * line.length := by
  have := scr.xAxis.isLt
  rw [lineWidth, Nat.mul_comm]
  exact toNat_ofNat_of_lt (by omega)

theorem intLen_of_width : intLen line = line.length := by
  have := scr.xAxis.isLt
  rw [intLen, toInt_toNat, toNat_ofNat_of_lt (by omega), if_pos (by omega)]

theorem textHits_iff : (∃ q ∈ linePixels gFont 0 y c line, scr.Hits q.x q.y p) ↔
    TextHits scr gFont y line p := by
  have hzero : ∀ i, (0 : BitVec 32) + BitVec.ofNat 32 i = BitVec.ofNat 32 i := fun i => BitVec.zero_add _
  constructor
  · rintro ⟨q, hq, hhit⟩
    obtain ⟨i, j, -, hdot, rfl⟩ := mem_linePixels.1 hq
    rw [hzero] at hhit
    exact ⟨i, j, hdot, hhit⟩
  · rintro ⟨i, j, hdot, hhit⟩
    refine ⟨_, mem_linePixels.2 ⟨i, j, ?_, hdot, rfl⟩, ?_⟩
    · rw [intLen_of_width hwidth]
      exact (textDot_iff.1 hdot).1
    · rw [hzero]
      exact hhit

theorem squareHits_iff (hrows : y.toNat + 16 < scr.yAxis.toNat) :
    (∃ q ∈ squarePixels 0 y (lineWidth line) (y + 16) c, scr.Hits q.x q.y p) ↔
      SquareHits scr y line p := by
  have hw := scr.xAxis.isLt
  have hh := scr.yAxis.isLt
  have hbottom : (y + 16).toNat = y.toNat + 16 := toNat_add_ofNat (k := 16) (by omega)
  constructor
  · rintro ⟨q, hq, hhit⟩
    obtain ⟨⟨-, hx⟩, ⟨hy, hy'⟩, -⟩ := mem_squarePixels.1 hq
    rw [BitVec.le_def, toNat_lineWidth hwidth] at hx
    rw [BitVec.le_def] at hy
    rw [BitVec.le_def, hbottom] at hy'
    refine ⟨q.x.toNat, hx, q.y.toNat - y.toNat, by omega, ?_⟩
    have hrow : y + BitVec.ofNat 32 (q.y.toNat - y.toNat) = q.y := by
      refine BitVec.eq_of_toNat_eq ?_
      rw [toNat_add_ofNat (by omega)]
      omega
    rw [hrow, BitVec.ofNat_toNat, BitVec.setWidth_eq]
    exact hhit
  · rintro ⟨i, hi, j, hj, hhit⟩
    have hx : (BitVec.ofNat 32 i).toNat = i := toNat_ofNat_of_lt (by omega)
    have hy : (y + BitVec.ofNat 32 j).toNat = y.toNat + j := toNat_add_ofNat (by omega)
    refine ⟨⟨BitVec.ofNat 32 i, y + BitVec.ofNat 32 j, c⟩,
      mem_squarePixels.2 ⟨⟨?_, ?_⟩, ⟨?_, ?_⟩, rfl⟩, hhit⟩
    · exact Nat.zero_le _
    · rw [BitVec.le_def, hx, toNat_lineWidth hwidth]
      exact hi
    · rw [BitVec.le_def, hy]
      exact Nat.le_add_right _ _
    · rw [BitVec.le_def, hy, hbottom]
      omega

end

/-- What is seen after a line. -/
theorem print_view (gFont : AsciiFont) (hline : ∀ b ∈ line, 1 ≤ b.toNat ∧ b.toNat ≤ 127)
    (hwidth : 8 * line.length < scr.xAxis.toNat) (hrows : con.printY.toNat + 16 < scr.yAxis.toNat)
    (m : Memory) : ∃ m', print scr.put gFont scr line con m = some (con.afterPrint scr, m') ∧ ∀ p,
      (TextHits scr gFont con.printY line p → scr.view m' p = ⟨con.printC, 0, 0⟩) ∧
      (¬ TextHits scr gFont con.printY line p → SquareHits scr con.printY line p →
        scr.view m' p = white) ∧
      (¬ TextHits scr gFont con.printY line p → ¬ SquareHits scr con.printY line p →
        scr.view m' p = scr.view m p) := by
  have hh := scr.yAxis.isLt
  have hreturns : (writeSquare 0 con.printY (lineWidth line) (con.printY + 16) white).Returns := by
    refine fun _ => ⟨lineWidth_ne_allOnes line, fun _ hmax => ?_⟩
    have hbottom : (con.printY + 16).toNat = con.printY.toNat + 16 := toNat_add_ofNat (k := 16) (by omega)
    rw [hmax, BitVec.toNat_allOnes] at hbottom
    omega
  have htext : (printLine 0 con.printY ⟨con.printC, 0, 0⟩ line).Returns :=
    printLine_returns fun b hb => Nat.lt_succ_of_le (hline b hb).2
  have hput : ∀ (ps : List Pixel) (m : Memory), ∃ m',
      ps.foldlM (fun m (q : Pixel) => scr.put q.x q.y q.color m) m = some m' :=
    Run.returns fun m (q : Pixel) => ⟨_, rfl⟩
  obtain ⟨m₁, hsquare⟩ := hput (squarePixels 0 con.printY (lineWidth line) (con.printY + 16) white) m
  obtain ⟨m₂, hdots⟩ := hput (linePixels gFont 0 con.printY ⟨con.printC, 0, 0⟩ line) m₁
  have hprint : print scr.put gFont scr line con m = some (con.afterPrint scr, m₂) :=
    Option.bind_eq_some_iff.2 ⟨m₁, (writeSquare_eq hreturns).trans hsquare,
      Option.bind_eq_some_iff.2 ⟨m₂, (printLine_eq htext).trans hdots, rfl⟩⟩
  refine ⟨m₂, hprint, fun p => ?_⟩
  have hafter := put_view_color (p := p) (fun q hq => by
    obtain ⟨i, j, -, -, rfl⟩ := mem_linePixels.1 hq
    rfl) hdots
  have hbefore := put_view_color (p := p) (fun q hq => (mem_squarePixels.1 hq).2.2) hsquare
  rw [textHits_iff hwidth] at hafter
  rw [squareHits_iff hwidth hrows] at hbefore
  refine ⟨hafter.1, fun hmiss hin => ?_, fun hmiss hout => ?_⟩
  · rw [hafter.2 hmiss, hbefore.1 hin]
  · rw [hafter.2 hmiss, hbefore.2 hout]

/-! ### On a screen whose pixels have different indices -/

section
variable (hfit : scr.Fits) (hwidth : 8 * line.length < scr.xAxis.toNat)
  (hrows : y.toNat + 16 < scr.yAxis.toNat)
include hfit hwidth hrows

theorem hits_iff_of_rows (hp : p ∈ scr.onScreen) {i j : ℕ} (hi : i ≤ 8 * line.length) (hj : j ≤ 16) :
    scr.Hits (BitVec.ofNat 32 i) (y + BitVec.ofNat 32 j) p ↔ p = (i, y.toNat + j) := by
  have hw := scr.xAxis.isLt
  have hh := scr.yAxis.isLt
  have hx : (BitVec.ofNat 32 i).toNat = i := toNat_ofNat_of_lt (by omega)
  have hy : (y + BitVec.ofNat 32 j).toNat = y.toNat + j := toNat_add_ofNat (by omega)
  rw [hits_iff hfit ⟨by omega, by omega⟩ hp, hx, hy]
  exact eq_comm

theorem mem_textArea_of_textHits (hp : p ∈ scr.onScreen) (hhit : TextHits scr gFont y line p) :
    p ∈ textArea y line := by
  obtain ⟨i, j, hdot, hhit⟩ := hhit
  obtain ⟨hi, font, -, hfont⟩ := textDot_iff.1 hdot
  have hj := font.lt_of_dot hfont
  obtain rfl := (hits_iff_of_rows hfit hwidth hrows hp (by omega) (by omega)).1 hhit
  exact ⟨by omega, Nat.le_add_right _ _, Nat.add_lt_add_left hj _⟩

theorem squareHits_iff_of_fits (hp : p ∈ scr.onScreen) :
    SquareHits scr y line p ↔ p.1 ≤ 8 * line.length ∧ y.toNat ≤ p.2 ∧ p.2 ≤ y.toNat + 16 := by
  constructor
  · rintro ⟨i, hi, j, hj, hhit⟩
    obtain rfl := (hits_iff_of_rows hfit hwidth hrows hp hi hj).1 hhit
    exact ⟨hi, Nat.le_add_right _ _, Nat.add_le_add_left hj _⟩
  · rintro ⟨hx, hy, hy'⟩
    refine ⟨p.1, hx, p.2 - y.toNat, by omega, ?_⟩
    rw [hits_iff_of_rows hfit hwidth hrows hp hx (by omega)]
    exact Prod.ext rfl (by simp only; omega)

end

theorem printKeeps_iff_of_fits (hfit : scr.Fits) (hwidth : 8 * line.length < scr.xAxis.toNat)
    (hrows : con.printY.toNat + 16 < scr.yAxis.toNat) : PrintKeeps scr gFont con line m ↔
      ∀ p : Point, p.1 ≤ 8 * line.length → con.printY.toNat ≤ p.2 → p.2 ≤ con.printY.toNat + 16 →
        p.1 = 8 * line.length ∨ p.2 = con.printY.toNat + 16 → scr.view m p = white := by
  constructor
  · intro hkeeps p hx hy hy' hedge
    have hp : p ∈ scr.onScreen := ⟨by omega, by omega⟩
    have hout : p ∉ textArea con.printY line := by
      rintro ⟨hin, -, hin'⟩
      omega
    exact hkeeps.square p hp hout
      (fun hhit => hout (mem_textArea_of_textHits hfit hwidth hrows hp hhit))
      ((squareHits_iff_of_fits hfit hwidth hrows hp).2 ⟨hx, hy, hy'⟩)
  · intro hwhite
    refine ⟨fun p hp hout hhit => ?_, fun p hp hout _ hin => ?_⟩
    · exact absurd (mem_textArea_of_textHits hfit hwidth hrows hp hhit) hout
    · obtain ⟨hx, hy, hy'⟩ := (squareHits_iff_of_fits hfit hwidth hrows hp).1 hin
      refine hwhite p hx hy hy' ?_
      by_contra hedge
      exact hout ⟨by omega, hy, by omega⟩

/-- A line changes no pixel outside its rows and columns exactly when those that it writes there have
the colour already: where all pixels of the screen have different indices, when the row below the text
and the column behind it are white. -/
theorem print_frame_iff (scr : Screen) (gFont : AsciiFont) (con : Console) (line : List (BitVec 8))
    (hline : ∀ b ∈ line, 1 ≤ b.toNat ∧ b.toNat ≤ 127)
    (hwidth : 8 * line.length < scr.xAxis.toNat) (hrows : con.printY.toNat + 16 < scr.yAxis.toNat)
    (m : Memory) : ∃ m', print scr.put gFont scr line con m = some (con.afterPrint scr, m') ∧
      ((∀ p ∈ scr.onScreen, p ∉ textArea con.printY line → scr.view m' p = scr.view m p) ↔
        PrintKeeps scr gFont con line m) ∧
      (scr.Fits → (PrintKeeps scr gFont con line m ↔
        ∀ p : Point, p.1 ≤ 8 * line.length → con.printY.toNat ≤ p.2 → p.2 ≤ con.printY.toNat + 16 →
          p.1 = 8 * line.length ∨ p.2 = con.printY.toNat + 16 → scr.view m p = white)) := by
  obtain ⟨m', hprint, hview⟩ := print_view gFont hline hwidth hrows m
  refine ⟨m', hprint, ?_, fun hfit => printKeeps_iff_of_fits hfit hwidth hrows⟩
  constructor
  · intro hsame
    refine ⟨fun p hp hout hhit => ?_, fun p hp hout hmiss hin => ?_⟩
    · rw [← hsame p hp hout, (hview p).1 hhit]
    · rw [← hsame p hp hout, (hview p).2.1 hmiss hin]
  · intro hkeeps p hp hout
    by_cases hhit : TextHits scr gFont con.printY line p
    · rw [(hview p).1 hhit, hkeeps.text p hp hout hhit]
    · by_cases hin : SquareHits scr con.printY line p
      · rw [(hview p).2.1 hhit hin, hkeeps.square p hp hout hhit hin]
      · exact (hview p).2.2 hhit hin

/-! ### A screen of two lines -/

def twoLineScreen : Screen := ⟨0x80000000, 2048, 16, 32, 16, none⟩

theorem fits_twoLineScreen : twoLineScreen.Fits := by
  unfold Fits
  decide

theorem print_frame_iff_white : ∃ m',
    print twoLineScreen.put blankFont twoLineScreen [0x41] Console.start (fun _ => 0xff) =
        some (Console.start.afterPrint twoLineScreen, m') ∧
      ∀ p ∈ twoLineScreen.onScreen, p ∉ textArea 0 [0x41] → twoLineScreen.view m' p = white := by
  obtain ⟨m', hprint, hframe, hkeeps⟩ := print_frame_iff twoLineScreen blankFont Console.start [0x41]
    (by decide) (by decide) (by decide) (fun _ => 0xff)
  exact ⟨m', hprint, hframe.2 ((hkeeps fits_twoLineScreen).2 fun _ _ _ _ _ => rfl)⟩

/-- A black screen: the first line leaves a white row where the second one begins. -/
theorem print_draws_below : ∃ m',
    print twoLineScreen.put blankFont twoLineScreen [0x41] Console.start (fun _ => 0) =
        some (Console.start.afterPrint twoLineScreen, m') ∧
      (0, 16) ∈ twoLineScreen.onScreen ∧ (0, 16) ∉ textArea 0 [0x41] ∧
      twoLineScreen.view (fun _ => 0) (0, 16) = ⟨0, 0, 0⟩ ∧ twoLineScreen.view m' (0, 16) = white := by
  have hin : (0, 16) ∈ twoLineScreen.onScreen := ⟨by decide, by decide⟩
  have hout : (0, 16) ∉ textArea 0 [0x41] := fun h => absurd h.2.2 (by decide)
  have hwidth : 8 * [(0x41 : BitVec 8)].length < twoLineScreen.xAxis.toNat := by decide
  have hrows : Console.start.printY.toNat + 16 < twoLineScreen.yAxis.toNat := by decide
  obtain ⟨m', hprint, hview⟩ := print_view blankFont (by decide) hwidth hrows (fun _ => 0)
  refine ⟨m', hprint, hin, hout, rfl, (hview (0, 16)).2.1 (fun hhit => ?_) ?_⟩
  · exact hout (mem_textArea_of_textHits fits_twoLineScreen hwidth hrows hin hhit)
  · exact ⟨0, by decide, 16, by decide, by decide⟩

end MosaOS
