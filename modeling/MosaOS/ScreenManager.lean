import MosaOS.Canvas
import MosaOS.ScreenList

/-!
# The two screens (`InitializeScreen` and `copyScreen`, `kernel/screen.cpp`)

The kernel draws on a back buffer and copies it to the frame buffer. Both screens take their lines to be
`x_axis` pixels long, the hardware takes them to be `ppsl` pixels long. `displayed_iff` says in which
modes the pixels drawn are the pixels displayed.
-/

namespace MosaOS
open ByteMem Layer ScreenList

/-- `sizeof(back_fb)`. -/
def kBackFbBytes : ℕ := 4 * 2116800

/-- `back_fb` is the address of the static array. Of two screens, the last one is found at the second test at
the latest (`ScreenList.getLast_two`). -/
def initializeScreen (back_fb : SizeT) (vinfo : VideoInfo) (sm : ScreenManager) : Option ScreenManager :=
  sm.initializeScreen 2 .framebufferBuf .backbufferBuf back_fb vinfo

def copyScreen (dst src : Screen) (m : Memory) : Memory :=
  if dst.fbSize ≠ src.fbSize then m else copyMem m dst.fb src.fb dst.fbSize.toNat

def frontScreen (vinfo : VideoInfo) : Screen :=
  { (ScreenNode.ofInfo vinfo (cString "FrameBuffer")).toScreen with next := some .backbufferBuf }

def backScreen (back_fb : SizeT) (vinfo : VideoInfo) : Screen :=
  (ScreenNode.ofInfo { vinfo with fb := back_fb } (cString "BackBuffer")).toScreen

theorem initializeScreen_eq (back_fb : SizeT) (vinfo : VideoInfo) (sm : ScreenManager) (h : sm.screens = none) :
    ∃ sm', initializeScreen back_fb vinfo sm = some sm' ∧ (sm'.getScreen 0).map sm'.deref = some (frontScreen vinfo) ∧
      (sm'.getScreen 1).map sm'.deref = some (backScreen back_fb vinfo) := by
  obtain ⟨screens, heap⟩ := sm
  obtain rfl : screens = none := h
  exact ⟨_, rfl, rfl, rfl⟩

/-- The colour that the hardware shows in column `x` of line `y`: its lines are `ppsl` pixels long. -/
def VideoInfo.hardwarePixel (vinfo : VideoInfo) (m : Memory) (p : Point) : Color :=
  pixelAt m (vinfo.fb + BitVec.ofNat 64 (4 * (p.2 * vinfo.ppsl.toNat + p.1)))

/-- The colour of the last pixel that the calls write at a point. -/
def lastDrawn (gFont : AsciiFont) (calls : List DrawCall) : Layer Point Color :=
  stack ((calls.flatMap (DrawCall.pixels gFont)).map fun p => point p.point p.color)

variable {gFont : AsciiFont} {calls : List DrawCall} {scr : Screen} {m m' : Memory}

/-- Calls that return write their pixels one after the other. -/
theorem run_pixels (h : calls.foldlM (fun m call => call.draw scr.put gFont m) m = some m') :
    (calls.flatMap (DrawCall.pixels gFont)).foldlM (fun m (p : Pixel) => scr.put p.x p.y p.color m) m =
      some m' := by
  rw [Run.flatMap, ← h]
  refine Run.congr fun m₁ call hmem => ?_
  by_cases hreturns : call.Returns
  · exact (DrawCall.draw_eq hreturns).symm
  · obtain ⟨t, t', hstep⟩ := Run.exists_step hmem h
    rw [DrawCall.draw_eq_none hreturns] at hstep
    cases hstep

theorem view_of_lastDrawn (hfit : scr.Fits)
    (h : calls.foldlM (fun m call => call.draw scr.put gFont m) m = some m')
    (hin : ∀ call ∈ calls, ∀ p ∈ call.pixels gFont, p.point ∈ scr.onScreen) {p : Point} {c : Color}
    (hp : p ∈ scr.onScreen) (hc : lastDrawn gFont calls p = some c) : scr.view m' p = c := by
  have hview : Set.EqOn (scr.view m') (paint (lastDrawn gFont calls) (scr.view m)) scr.onScreen := by
    refine Layer.run (fun m₁ q m₂ hq hstep => ?_) (run_pixels h)
    cases hstep
    obtain ⟨call, hcall, hq⟩ := List.mem_flatMap.1 hq
    exact Screen.writePixel_view hfit (hin call hcall q hq)
  rw [hview hp, paint, hc]
  rfl

/-- What the hardware shows after the copy, in terms of the back buffer. -/
theorem hardwarePixel_copyScreen {vinfo : VideoInfo} (back_fb : SizeT) (m : Memory) {p : Point}
    (h : 4 * (p.2 * vinfo.ppsl.toNat + p.1) + 2 < vinfo.fbSize.toNat) :
    vinfo.hardwarePixel (copyScreen (frontScreen vinfo) (backScreen back_fb vinfo) m) p =
      pixelAt m (back_fb + BitVec.ofNat 64 (4 * (p.2 * vinfo.ppsl.toNat + p.1))) := by
  have hsize := vinfo.fbSize.isLt
  have hcopy : copyScreen (frontScreen vinfo) (backScreen back_fb vinfo) m =
      copyMem m vinfo.fb back_fb vinfo.fbSize.toNat := if_neg (not_not.2 rfl)
  unfold VideoInfo.hardwarePixel
  generalize 4 * (p.2 * vinfo.ppsl.toNat + p.1) = o at h ⊢
  rw [hcopy, pixelAt_add, pixelAt_add, copyMem_add (by omega) (by omega), copyMem_add (by omega) (by omega),
    copyMem_add (by omega) (by omega)]

theorem hardware_offset_lt {vinfo : VideoInfo} (hppsl : vinfo.xAxis.toNat ≤ vinfo.ppsl.toNat)
    (hsize : 4 * (vinfo.ppsl.toNat * vinfo.yAxis.toNat) ≤ vinfo.fbSize.toNat) {p : Point}
    (hx : p.1 < vinfo.xAxis.toNat) (hy : p.2 < vinfo.yAxis.toNat) :
    4 * (p.2 * vinfo.ppsl.toNat + p.1) + 2 < vinfo.fbSize.toNat := by
  have hline : p.2 * vinfo.ppsl.toNat + vinfo.ppsl.toNat ≤ vinfo.ppsl.toNat * vinfo.yAxis.toNat := by
    calc p.2 * vinfo.ppsl.toNat + vinfo.ppsl.toNat = vinfo.ppsl.toNat * (p.2 + 1) := by ring
      _ ≤ vinfo.ppsl.toNat * vinfo.yAxis.toNat := Nat.mul_le_mul_left _ hy
  omega

/-- What is drawn at `p` on the back buffer is what the hardware shows there after `copyScreen`. -/
def ShownAt (vinfo : VideoInfo) (front back : Screen) (p : Point) : Prop :=
  ∀ gFont calls m m', calls.foldlM (fun m call => DrawCall.draw back.put gFont m call) m = some m' →
    (∀ call ∈ calls, ∀ p ∈ call.pixels gFont, p.point ∈ back.onScreen) →
    ∀ c, lastDrawn gFont calls p = some c → vinfo.hardwarePixel (copyScreen front back m') p = c

/-- A pixel is shown where it is drawn exactly when the lines have no padding or it is in the first of them. -/
theorem shownAt_iff {back_fb : SizeT} {vinfo : VideoInfo} (hppsl : vinfo.xAxis.toNat ≤ vinfo.ppsl.toNat)
    (hsize : 4 * (vinfo.ppsl.toNat * vinfo.yAxis.toNat) ≤ vinfo.fbSize.toNat)
    (hback : vinfo.fbSize.toNat ≤ kBackFbBytes) {p : Point} (hp : p ∈ (backScreen back_fb vinfo).onScreen) :
    ShownAt vinfo (frontScreen vinfo) (backScreen back_fb vinfo) p ↔ vinfo.ppsl = vinfo.xAxis ∨ p.2 = 0 := by
  have hfit : (backScreen back_fb vinfo).Fits := by
    have hle := Nat.mul_le_mul_right vinfo.yAxis.toNat hppsl
    show vinfo.xAxis.toNat * vinfo.yAxis.toNat ≤ 2 ^ 32
    unfold kBackFbBytes at hback
    omega
  have hx : p.1 < vinfo.xAxis.toNat := hp.1
  have hy : p.2 < vinfo.yAxis.toNat := hp.2
  have hshows := fun m => hardwarePixel_copyScreen back_fb m (hardware_offset_lt hppsl hsize hx hy)
  constructor
  · intro hall
    by_contra hnot
    obtain ⟨hpad, hline⟩ := not_or.1 hnot
    have hne : vinfo.xAxis.toNat < vinfo.ppsl.toNat :=
      lt_of_le_of_ne hppsl fun h => hpad (BitVec.eq_of_toNat_eq h.symm)
    have hcol : (BitVec.ofNat 32 p.1).toNat = p.1 := Nat.mod_eq_of_lt (hx.trans vinfo.xAxis.isLt)
    have hrow : (BitVec.ofNat 32 p.2).toNat = p.2 := Nat.mod_eq_of_lt (hy.trans vinfo.yAxis.isLt)
    have hpoint : ((BitVec.ofNat 32 p.1).toNat, (BitVec.ofNat 32 p.2).toNat) = p := by rw [hcol, hrow]
    -- one blue pixel on a back buffer of zeros
    have hlast : lastDrawn blankFont [DrawCall.writePixel (BitVec.ofNat 32 p.1) (BitVec.ofNat 32 p.2) ⟨0, 0, 1⟩] p =
        some ⟨0, 0, 1⟩ := stack_singleton.trans (if_pos hpoint)
    have hon : ((BitVec.ofNat 32 p.1).toNat, (BitVec.ofNat 32 p.2).toNat) ∈ (backScreen back_fb vinfo).onScreen :=
      hpoint.symm ▸ hp
    have hshown := hall blankFont _ (fun _ => 0) _ rfl
      (by simpa [DrawCall.pixels, Pixel.point] using hon) ⟨0, 0, 1⟩ hlast
    rw [hshows] at hshown
    have hblue := congrArg Color.b hshown
    have hlt : p.2 * vinfo.xAxis.toNat < p.2 * vinfo.ppsl.toNat := Nat.mul_lt_mul_of_pos_left hne (Nat.pos_of_ne_zero hline)
    have hin := hardware_offset_lt hppsl hsize hx hy
    have hwide := vinfo.fbSize.isLt
    have hbyte := Screen.writePixel_byte (c := ⟨0, 0, 1⟩) (m := fun _ => 0)
      (o := 4 * (p.2 * vinfo.ppsl.toNat + p.1)) (Screen.toNat_index hfit hon) (by omega)
    have hoffset : (backScreen back_fb vinfo).offset ((BitVec.ofNat 32 p.1).toNat, (BitVec.ofNat 32 p.2).toNat) =
        p.2 * vinfo.xAxis.toNat + p.1 := by
      rw [hpoint]
      rfl
    rw [hoffset, if_neg (by omega), if_neg (by omega), if_neg (by omega)] at hbyte
    exact absurd (hbyte.symm.trans hblue) (by decide)
  · intro hcond gFont calls m m' hrun hin c hc
    have hview := view_of_lastDrawn hfit hrun hin hp hc
    have hoffset : p.2 * vinfo.ppsl.toNat + p.1 = (backScreen back_fb vinfo).offset p := by
      show _ = p.2 * vinfo.xAxis.toNat + p.1
      rcases hcond with hsame | hzero
      · rw [hsame]
      · rw [hzero, Nat.zero_mul, Nat.zero_mul]
    rw [hshows, hoffset]
    exact hview

/-- After `InitializeScreen`, what is drawn at a pixel of the back buffer is what the hardware shows there after
`copyScreen` exactly when the lines have no padding or the pixel is in the first line. So this is so for all pixels
exactly when the lines have no padding, or there are no two lines, or no pixel at all. -/
theorem displayed_iff (back_fb : SizeT) (vinfo : VideoInfo)
    (hppsl : vinfo.xAxis.toNat ≤ vinfo.ppsl.toNat)
    (hsize : 4 * (vinfo.ppsl.toNat * vinfo.yAxis.toNat) ≤ vinfo.fbSize.toNat)
    (hback : vinfo.fbSize.toNat ≤ kBackFbBytes) :
    ∃ sm front back, initializeScreen back_fb vinfo zeroed = some sm ∧
      (sm.getScreen 0).map sm.deref = some front ∧ (sm.getScreen 1).map sm.deref = some back ∧
      (∀ p ∈ back.onScreen, (ShownAt vinfo front back p ↔ vinfo.ppsl = vinfo.xAxis ∨ p.2 = 0)) ∧
      ((∀ gFont calls m m', calls.foldlM (fun m call => DrawCall.draw back.put gFont m call) m = some m' →
          (∀ call ∈ calls, ∀ p ∈ call.pixels gFont, p.point ∈ back.onScreen) →
          ∀ p ∈ back.onScreen, ∀ c, lastDrawn gFont calls p = some c →
            vinfo.hardwarePixel (copyScreen front back m') p = c) ↔
        vinfo.ppsl = vinfo.xAxis ∨ vinfo.yAxis.toNat ≤ 1 ∨ vinfo.xAxis = 0) := by
  obtain ⟨sm, hinit, hfront, hbackScreen⟩ := initializeScreen_eq back_fb vinfo zeroed rfl
  refine ⟨sm, frontScreen vinfo, backScreen back_fb vinfo, hinit, hfront, hbackScreen,
    fun p hp => shownAt_iff hppsl hsize hback hp, fun hall => ?_, fun hcond gFont calls m m' hrun hin p hp c hc => ?_⟩
  · by_contra hnot
    simp only [not_or] at hnot
    obtain ⟨hpad, hlines, hzero⟩ := hnot
    have hx : 0 < vinfo.xAxis.toNat := Nat.pos_of_ne_zero fun h => hzero (BitVec.eq_of_toNat_eq h)
    -- the head of the second line
    have hp : (0, 1) ∈ (backScreen back_fb vinfo).onScreen := ⟨hx, Nat.not_le.1 hlines⟩
    rcases (shownAt_iff hppsl hsize hback hp).1 fun gFont calls m m' hrun hin c hc =>
      hall gFont calls m m' hrun hin (0, 1) hp c hc with h | h
    · exact hpad h
    · cases h
  · refine (shownAt_iff hppsl hsize hback hp).2 ?_ gFont calls m m' hrun hin c hc
    obtain ⟨hx, hy⟩ := hp
    rcases hcond with hsame | hone | hzero
    · exact Or.inl hsame
    · exact Or.inr (Nat.lt_one_iff.1 (hy.trans_le hone))
    · have hx : p.1 < vinfo.xAxis.toNat := hx
      rw [hzero] at hx
      exact absurd hx (Nat.not_lt_zero _)

theorem displayed_iff_plain : ∃ sm front back,
    initializeScreen 0x200000 ⟨0x80000000, 1920000, 800, 600, 800⟩ zeroed = some sm ∧
      (sm.getScreen 0).map sm.deref = some front ∧ (sm.getScreen 1).map sm.deref = some back ∧
      ∀ gFont calls m m', calls.foldlM (fun m call => DrawCall.draw back.put gFont m call) m = some m' →
        (∀ call ∈ calls, ∀ p ∈ call.pixels gFont, p.point ∈ back.onScreen) →
        ∀ p ∈ back.onScreen, ∀ c, lastDrawn gFont calls p = some c →
          VideoInfo.hardwarePixel ⟨0x80000000, 1920000, 800, 600, 800⟩ (copyScreen front back m') p = c := by
  obtain ⟨sm, front, back, hinit, hfront, hback, -, hiff⟩ := displayed_iff 0x200000
    ⟨0x80000000, 1920000, 800, 600, 800⟩ (by decide) (by decide) (by decide)
  exact ⟨sm, front, back, hinit, hfront, hback, hiff.2 (Or.inl rfl)⟩

/-! ### A mode with padded lines -/

/-- 1366 pixels in lines of 1376. -/
def paddedMode : VideoInfo := ⟨0x80000000, 4227072, 1366, 768, 1376⟩

/-- The first pixel of the second line is drawn, and displayed in the padding of the first. -/
theorem paddedMode_shifts :
    (∃ sm, initializeScreen 0x200000 paddedMode zeroed = some sm ∧
      (sm.getScreen 0).map sm.deref = some (frontScreen paddedMode) ∧
      (sm.getScreen 1).map sm.deref = some (backScreen 0x200000 paddedMode)) ∧
      paddedMode.xAxis.toNat ≤ paddedMode.ppsl.toNat ∧
      4 * (paddedMode.ppsl.toNat * paddedMode.yAxis.toNat) ≤ paddedMode.fbSize.toNat ∧
      paddedMode.fbSize.toNat ≤ kBackFbBytes ∧
      ∀ m', [DrawCall.writePixel 0 1 ⟨0, 0, 1⟩].foldlM (fun m call =>
          call.draw (backScreen 0x200000 paddedMode).put blankFont m) (fun _ => 0) = some m' →
        paddedMode.hardwarePixel
            (copyScreen (frontScreen paddedMode) (backScreen 0x200000 paddedMode) m') (0, 1) = ⟨0, 0, 0⟩ ∧
          paddedMode.hardwarePixel
            (copyScreen (frontScreen paddedMode) (backScreen 0x200000 paddedMode) m') (1366, 0) =
              ⟨0, 0, 1⟩ := by
  refine ⟨initializeScreen_eq _ _ _ rfl, by decide, by decide, by decide, fun m' h => ?_⟩
  cases h
  rw [hardwarePixel_copyScreen _ _ (by decide), hardwarePixel_copyScreen _ _ (by decide)]
  exact ⟨by decide, by decide⟩

end MosaOS
