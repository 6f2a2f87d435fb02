import MosaOS.KernelMain
import MosaOS.Orientation

/-!
# The run of `KernelMain`

The parts of `kernelMain` one after the other: what is on the screen when it is copied, and that the tables of
the processor stay as they were filled.
-/

namespace MosaOS
open ByteMem X86

namespace Kernel

variable {img : KernelImage} {vinfo : VideoInfo} {gFont : AsciiFont} {k k' k₀ : Kernel} {calls : List DrawCall}
  {lines : List (List (BitVec 8))}

/-! ### The background -/

variable (img) in
theorem fillScreen_white (hmode : vinfo.Suits) (gFont : AsciiFont) (m : Memory) : ∃ m',
    fillScreen (backScreen img.back_fb vinfo).put (frontScreen vinfo) m = some m' ∧
      (∀ p ∈ (backScreen img.back_fb vinfo).onScreen, (backScreen img.back_fb vinfo).view m' p = white) ∧
      Set.EqOn m' m (backScreen img.back_fb vinfo).colorBytesᶜ := by
  let pixelCall (p : Pixel) : DrawCall := .writePixel p.x p.y p.color
  have hpixel : ∀ p ∈ fillPixels (frontScreen vinfo), p.point ∈ (backScreen img.back_fb vinfo).onScreen ∧
      p.color = white := by
    intro p hp
    obtain ⟨hx, hy, hcolor⟩ := mem_fillPixels.1 hp
    exact ⟨⟨hx, hy⟩, hcolor⟩
  have hok : ∀ call ∈ (fillPixels (frontScreen vinfo)).map pixelCall, call.IsAscii ∧
      call.InRange gFont (backScreen img.back_fb vinfo) ∧ call.Counted gFont := by
    intro call hcall
    obtain ⟨p, hp, rfl⟩ := List.mem_map.1 hcall
    refine ⟨trivial, fun q hq => ?_, trivial⟩
    obtain rfl : p.point = q := of_not_not fun hne => hq (if_neg hne)
    exact (hpixel p hp).1
  obtain ⟨m', hrun, hview, hframe⟩ := draws_view (hmode.fits img.back_fb) hok m
  refine ⟨m', ?_, fun p hp => ?_, hframe⟩
  · rw [fillScreen_eq, ← hrun, List.foldlM_map]
    rfl
  · have hwhite : lastColor gFont ((fillPixels (frontScreen vinfo)).map pixelCall) p = some white := by
      refine Layer.stack_eq_some ?_ ?_
      · simp only [List.mem_map, forall_exists_index, and_imp, forall_apply_eq_imp_iff₂]
        intro q hq c hc
        have hshape : (pixelCall q).shape gFont p = if q.point = p then some q.color else none := rfl
        rw [hshape] at hc
        split at hc
        · rw [← (hpixel q hq).2]
          exact (Option.some.inj hc).symm
        · cases hc
      · obtain ⟨hx, hy⟩ := hp
        have hwidth := (backScreen img.back_fb vinfo).xAxis.isLt
        have hheight := (backScreen img.back_fb vinfo).yAxis.isLt
        have hX : (BitVec.ofNat 32 p.1).toNat = p.1 := toNat_ofNat_of_lt (by omega)
        have hY : (BitVec.ofNat 32 p.2).toNat = p.2 := toNat_ofNat_of_lt (by omega)
        have hmem : ⟨BitVec.ofNat 32 p.1, BitVec.ofNat 32 p.2, white⟩ ∈ fillPixels (frontScreen vinfo) := by
          refine mem_fillPixels.2 ⟨?_, ?_, rfl⟩
          · rwa [BitVec.lt_def, hX]
          · rwa [BitVec.lt_def, hY]
        refine ⟨_, List.mem_map_of_mem (List.mem_map_of_mem hmem), ?_⟩
        exact ne_of_eq_of_ne (if_pos (Prod.ext hX hY)) (Option.some_ne_none _)
    rw [hview hp, Layer.paint, hwhite]
    rfl

theorem squareCalls_ok (hmode : vinfo.Suits) (back_fb : SizeT) {call : DrawCall} (hcall : call ∈ squareCalls) :
    call.IsAscii ∧ call.InRange gFont (backScreen back_fb vinfo) ∧ call.Counted gFont := by
  have hwide := hmode.wide
  have hhigh := hmode.high
  simp only [squareCalls, List.mem_cons, List.not_mem_nil, or_false] at hcall
  rcases hcall with rfl | rfl
  all_goals
    refine ⟨trivial, fun p hp => ?_, by simp [DrawCall.Counted]⟩
    obtain ⟨-, hx, -, hy⟩ := of_not_not fun hnot => hp (if_neg hnot)
    simp only [BitVec.reduceToNat] at hx hy
    exact ⟨show p.1 < vinfo.xAxis.toNat by omega, show p.2 < vinfo.yAxis.toNat by omega⟩

theorem drawBackground_booting (hmode : vinfo.Suits) (hcon : k.con = .start) (hsaid : k.said = [])
    (hheap : k.heap = k₀.heap) (hmem : Set.EqOn k.mem k₀.mem img.writtenᶜ) (gFont : AsciiFont) :
    ∃ k', k.drawBackground img.toKernelObjects (backScreen img.back_fb vinfo) (frontScreen vinfo) = some k' ∧
      Booting img vinfo gFont k₀ squareCalls [] k' := by
  obtain ⟨m', hfill, hwhite, hframe⟩ := fillScreen_white img hmode gFont k.mem
  have hcolors := hmode.colorBytes img.back_fb
  let k₁ : Kernel := { k with mem := m' }
  have hblank : Booting img vinfo gFont k₀ [] [] (k₁.called img.toKernelObjects) := by
    refine ⟨?_, hsaid, hheap, fun p hp => (k₁.called_view _ hcolors hp).trans (hwhite p hp), ?_⟩
    · show k.con = consoleAfter _ k.said
      rw [hcon, hsaid]
      rfl
    · have hdrawn : Set.EqOn (k₁.called img.toKernelObjects).mem k.mem img.drawnᶜ := k₁.called_drawn hframe hcolors
      exact (hdrawn.mono (Set.compl_subset_compl.2 img.drawn_subset)).trans hmem
  have hok : ∀ call ∈ squareCalls, call.IsAscii ∧ call.InRange gFont (backScreen img.back_fb vinfo) ∧
      call.Counted gFont := fun call hcall => squareCalls_ok hmode img.back_fb hcall
  simp only [squareCalls, List.forall_mem_cons] at hok
  obtain ⟨⟨hascii₂, hin₂, hcount₂⟩, ⟨hascii₃, hin₃, hcount₃⟩, -⟩ := hok
  obtain ⟨k₂, h₂, -, -, hb₂⟩ := hblank.draw hmode hascii₂ hin₂ hcount₂ (f := Screen.writeSquare _ _ _ _ _ _) rfl
  obtain ⟨k₃, h₃, -, -, hb₃⟩ := hb₂.draw hmode hascii₃ hin₃ hcount₃ (f := Screen.writeSquare _ _ _ _ _ _) rfl
  refine ⟨k₃, ?_, hb₃⟩
  have hfirst : k.draw img.toKernelObjects (fillScreen (backScreen img.back_fb vinfo).put (frontScreen vinfo)) =
      some (k₁.called img.toKernelObjects) := by
    rw [Kernel.draw, hfill]
    rfl
  unfold drawBackground
  exact Option.bind_eq_some_iff.2 ⟨_, hfirst, Option.bind_eq_some_iff.2 ⟨k₂, h₂, h₃⟩⟩

/-! ### The processor -/

def textCalls (lines : List (List (BitVec 8))) : List DrawCall :=
  lines.zipIdx.flatMap fun (line, l) => lineCalls l line

theorem textCalls_snoc (lines : List (List (BitVec 8))) (line : List (BitVec 8)) :
    textCalls (lines ++ [line]) = textCalls lines ++ lineCalls lines.length line := by
  simp [textCalls, List.zipIdx_append]

/-- The lines of text are all that has been drawn over the squares. -/
abbrev Printed (img : KernelImage) (vinfo : VideoInfo) (gFont : AsciiFont) (k₀ : Kernel) (lines : List String)
    (k : Kernel) : Prop :=
  Booting img vinfo gFont k₀ (squareCalls ++ textCalls (lines.map cString)) (lines.map cString) k

theorem Printed.print {lines : List String} (h : Printed img vinfo gFont k₀ lines k) (hmode : vinfo.Suits)
    (line : String) (hfew : lines.length ≤ 8) (hshort : ShortText (cString line)) :
    ∃ k', k.print img.toKernelObjects gFont (backScreen img.back_fb vinfo) line = some k' ∧ k'.sys = k.sys ∧
      Set.EqOn k'.mem k.mem img.drawnᶜ ∧ Printed img vinfo gFont k₀ (lines ++ [line]) k' := by
  obtain ⟨k', hk', hsys, hframe, hb⟩ := Booting.print h hmode line (by simpa using hfew) hshort
  refine ⟨k', hk', hsys, hframe, ?_⟩
  rw [List.append_assoc, ← textCalls_snoc] at hb
  simpa [Printed] using hb

theorem processor_bind {f g : Machine → Option Machine}
    (h : k.processor (fun machine => (f machine).bind g) = some k') :
    ∃ k₁, k.processor f = some k₁ ∧ k₁.processor g = some k' := by
  obtain ⟨machine', hboth, rfl⟩ := Option.map_eq_some_iff.1 h
  obtain ⟨machine, hf, hg⟩ := Option.bind_eq_some_iff.1 hboth
  refine ⟨{ k with toMachine := machine }, ?_, ?_⟩
  · rw [processor, hf]
    rfl
  · show (g machine).map _ = _
    rw [hg]
    rfl

theorem setUpProcessor_printed (hmode : vinfo.Suits)
    (h : Printed img vinfo gFont k₀ ["Hello, World!!", "Welcome to MosaOS!!!"] k) :
    ∃ k', k.setUpProcessor img.toKernelObjects gFont (backScreen img.back_fb vinfo) img.intDefault img.intSegFault =
        some k' ∧ SystemFor img.toTableObjects k'.sys ∧
      KernelTables img.toTableObjects img.intDefault img.intSegFault k'.mem ∧
      Printed img vinfo gFont k₀ ["Hello, World!!", "Welcome to MosaOS!!!", "Setup Segments.", "finished.",
        "Setup Paging.", "finished.", "init interrupt", "finished."] k' := by
  have hfinished : ShortText (cString "finished.") := by simp [ShortText, cString]
  let o := img.toKernelObjects
  obtain ⟨k₁, h₁, -, -, hp₁⟩ := h.print hmode "Setup Segments." (by simp) (by simp [ShortText, cString])
  obtain ⟨machine₂, hset₂, hsys₂, hseg₂, hf₂⟩ := k₁.toMachine.setupSegments_run o
  obtain ⟨k₂, h₂, rfl, hp₂⟩ := Booting.processor hp₁ hmode hset₂ o.gdt_subset hf₂
  have hgdtr₂ : k₂.sys.gdtr = gdtRegister o.gdt := by rw [hsys₂]
  obtain ⟨machine₃, machine₄, hds, hcs, hsys₄, hseg₄, hf₄⟩ := k₂.toMachine.selectors_run o hgdtr₂ hseg₂
  have hselectors : (k₂.toMachine.setDSAll o 0).bind (·.setCSSS o kernelCs kernelSs) = some machine₄ :=
    Option.bind_eq_some_iff.2 ⟨machine₃, hds, hcs⟩
  obtain ⟨k₄, hboth, rfl, hp₄⟩ := Booting.processor (f := fun machine => (machine.setDSAll o 0).bind _) hp₂ hmode
    hselectors o.gdt_subset hf₄
  obtain ⟨k₃, h₃, h₄⟩ := processor_bind hboth
  obtain ⟨k₅, h₅, hsys₅, hf₅, hp₅⟩ := Printed.print hp₄ hmode "finished." (by simp) hfinished
  obtain ⟨k₆, h₆, hsys₆, hf₆, hp₆⟩ := hp₅.print hmode "Setup Paging." (by simp) (by simp [ShortText, cString])
  obtain ⟨machine₇, hset₇, hsys₇, hlow₇, hf₇⟩ := k₆.toMachine.paging_run o
  obtain ⟨k₇, h₇, rfl, hp₇⟩ := Booting.processor hp₆ hmode hset₇ o.tables_subset hf₇
  obtain ⟨k₈, h₈, hsys₈, hf₈, hp₈⟩ := Printed.print hp₇ hmode "finished." (by simp) hfinished
  obtain ⟨k₉, h₉, hsys₉, hf₉, hp₉⟩ := hp₈.print hmode "init interrupt" (by simp) (by simp [ShortText, cString])
  have hsysEq₉ : k₉.sys = { Machine.withSelectors k₂.sys with cr3 := o.tables.pml4Table } := by
    rw [hsys₉, hsys₈, hsys₇, hsys₆, hsys₅, hsys₄]
  have hcs₉ : getCS k₉.sys = kernelCs := by
    rw [hsysEq₉]
    rfl
  obtain ⟨machine, hset, hsys, hgates, hf⟩ := k₉.toMachine.interrupt_run o img.intDefault img.intSegFault hcs₉
  obtain ⟨k₁₀, h₁₀, rfl, hp₁₀⟩ := Booting.processor hp₉ hmode hset o.idt_subset hf
  obtain ⟨k', h', hsys', hf', hp'⟩ := Printed.print hp₁₀ hmode "finished." (by simp) hfinished
  refine ⟨k', ?_, ?_, ?_, hp'⟩
  · unfold setUpProcessor
    refine Option.bind_eq_some_iff.2 ⟨k₁, h₁, Option.bind_eq_some_iff.2 ⟨k₂, h₂, ?_⟩⟩
    refine Option.bind_eq_some_iff.2 ⟨k₃, h₃, Option.bind_eq_some_iff.2 ⟨k₄, h₄, ?_⟩⟩
    refine Option.bind_eq_some_iff.2 ⟨k₅, h₅, Option.bind_eq_some_iff.2 ⟨k₆, h₆, ?_⟩⟩
    refine Option.bind_eq_some_iff.2 ⟨k₇, h₇, Option.bind_eq_some_iff.2 ⟨k₈, h₈, ?_⟩⟩
    refine Option.bind_eq_some_iff.2 ⟨k₉, h₉, ?_⟩
    exact Option.bind_eq_some_iff.2 ⟨k₁₀, h₁₀, h'⟩
  · rw [hsys', hsys, hsysEq₉, hsys₂]
    refine ⟨rfl, rfl, rfl, rfl, rfl, fun r hr => ?_⟩
    simp only [List.mem_cons, List.not_mem_nil, or_false] at hr
    rcases hr with rfl | rfl | rfl | rfl
    all_goals rfl
  · -- neither the text nor the other tables are written over a table
    have htext : ∀ {m m' : Memory} {S : Set SizeT}, Set.EqOn m' m img.drawnᶜ → S ⊆ o.bytes → Set.EqOn m' m S :=
      fun hm hS => frame_apart hm (img.drawn_tables.mono_right hS).symm
    have hgdt : Set.EqOn k'.mem k₄.mem (range o.gdt 24) :=
      (((htext hf' o.gdt_subset).trans (Machine.table_of_frame hf o.gdt_subset o.gdt_idt)).trans
        ((htext hf₉ o.gdt_subset).trans (htext hf₈ o.gdt_subset))).trans
        ((Machine.table_of_frame hf₇ o.gdt_subset o.gdt_tables).trans
          ((htext hf₆ o.gdt_subset).trans (htext hf₅ o.gdt_subset)))
    have htables : Set.EqOn k'.mem k₇.mem o.tables.bytes :=
      ((htext hf' o.tables_subset).trans (Machine.table_of_frame hf o.tables_subset o.idt_tables.symm)).trans
        ((htext hf₉ o.tables_subset).trans (htext hf₈ o.tables_subset))
    exact ⟨hseg₄.congr hgdt, hgates.congr (htext hf' o.idt_subset), hlow₇.same (Layout.same_of_eqOn htables)⟩

end Kernel

/-! ### The picture -/

open BitMapImage Kernel

/-- The bytes that `printBmp` reads. -/
def pictureBytes (m : Memory) (bmp : SizeT) : Set SizeT :=
  range bmp 30 ∪ {a | ∃ x < (ofFile m bmp).width, ∃ y < (ofFile m bmp).height, a ∈ colorAddrs m (ofFile m bmp) x y}

section
variable {m m' : Memory} {a b bmp : SizeT} {o n : ℕ}

theorem readU32_congr (h : Set.EqOn m' m (range b n)) (ha : a = b + BitVec.ofNat 64 o) (ho : o + 4 ≤ n)
    (hn : n ≤ 2 ^ 64) : readU32 m' a = readU32 m a := by
  subst ha
  rw [readU32, readU32, readNat_congr (by simp) (h.mono (range_add_subset ho (ho.trans hn)))]

theorem readU16_congr (h : Set.EqOn m' m (range b n)) (ha : a = b + BitVec.ofNat 64 o) (ho : o + 2 ≤ n)
    (hn : n ≤ 2 ^ 64) : readU16 m' a = readU16 m a := by
  subst ha
  rw [readU16, readU16, readNat_congr (by simp) (h.mono (range_add_subset ho (ho.trans hn)))]

theorem ofFile_congr (h : Set.EqOn m' m (range bmp 30)) : ofFile m' bmp = ofFile m bmp := by
  have hoff : bfOffBits m' bmp = bfOffBits m bmp := readU32_congr h (o := 10) rfl (by simp) (by simp)
  have hwidth : bcWidth m' (bmp + sizeofBMHeader) = bcWidth m (bmp + sizeofBMHeader) :=
    readU32_congr h (add_ofNat bmp 14 4) (by simp) (by simp)
  have hheight : bcHeight m' (bmp + sizeofBMHeader) = bcHeight m (bmp + sizeofBMHeader) :=
    readU32_congr h (add_ofNat bmp 14 8) (by simp) (by simp)
  simp only [ofFile, hoff, hwidth, hheight]

theorem getColor_congr (h : Set.EqOn m' m (pictureBytes m bmp)) {x y : BitVec 32}
    (hx : x < (ofFile m bmp).width) (hy : y < (ofFile m bmp).height) :
    getColor m' (ofFile m bmp) x y = getColor m (ofFile m bmp) x y := by
  have hbits : bcBitCount m' (bmp + sizeofBMHeader) = bcBitCount m (bmp + sizeofBMHeader) :=
    readU16_congr (h.mono Set.subset_union_left) (add_ofNat bmp 14 14) (by simp) (by simp)
  have hindex : colorIndex m' (ofFile m bmp) x y = colorIndex m (ofFile m bmp) x y := by
    unfold colorIndex
    have hinfo : (ofFile m bmp).info = bmp + sizeofBMHeader := rfl
    rw [hinfo, hbits]
  have hbyte : ∀ a ∈ colorAddrs m (ofFile m bmp) x y, m' a = m a := fun a ha => h (Or.inr ⟨x, hx, y, hy, ha⟩)
  simp only [colorAddrs, List.forall_mem_map, List.forall_mem_cons] at hbyte
  obtain ⟨hblue, hgreen, hred, -⟩ := hbyte
  rw [BitVec.add_zero] at hblue
  rw [getColor_eq, getColor_eq, hindex, hblue, hgreen, hred]

theorem printBmp_shape_congr (gFont : AsciiFont) (h : Set.EqOn m' m (pictureBytes m bmp)) {x y : BitVec 32} :
    (DrawCall.printBmp x y m' (ofFile m' bmp)).shape gFont = (DrawCall.printBmp x y m (ofFile m bmp)).shape gFont := by
  rw [ofFile_congr (h.mono Set.subset_union_left)]
  funext p
  simp only [DrawCall.shape]
  split
  · rename_i hin
    obtain ⟨hx, hx', hy, hy'⟩ := hin
    have hw := (ofFile m bmp).width.isLt
    have hh := (ofFile m bmp).height.isLt
    have hcol : (BitVec.ofNat 32 (p.1 - x.toNat)).toNat = p.1 - x.toNat := toNat_ofNat_of_lt (by omega)
    have hrow : (BitVec.ofNat 32 (p.2 - y.toNat)).toNat = p.2 - y.toNat := toNat_ofNat_of_lt (by omega)
    rw [getColor_congr h]
    · rw [BitVec.lt_def, hcol]
      omega
    · rw [BitVec.lt_def, hrow]
      omega
  · rfl

end

/-! ### What is displayed -/

variable {img : KernelImage} {vinfo : VideoInfo} {gFont : AsciiFont} {k k' k₀ : Kernel} {bmp : SizeT}

/-- The lines of text before `copyScreen`. -/
def bootLines : List String := ["Hello, World!!", "Welcome to MosaOS!!!", "Setup Segments.", "finished.",
  "Setup Paging.", "finished.", "init interrupt", "finished.", "print Mosa.bmp"]

/-- All drawing calls before `copyScreen`. -/
def bootCalls (m : Memory) (bmp : SizeT) : List DrawCall :=
  squareCalls ++ textCalls (bootLines.map cString) ++ [.printBmp 200 200 m (ofFile m bmp)]

/-- The picture is on the screen. -/
structure PictureFits (vinfo : VideoInfo) (bmp : BitMapImage) : Prop where
  width : 200 + bmp.width.toNat ≤ vinfo.xAxis.toNat
  height : 200 + bmp.height.toNat ≤ vinfo.yAxis.toNat

/-- The frame buffer of the mode and the picture are apart from what `KernelMain` writes to, and are mapped. -/
structure BuffersApart (img : KernelImage) (vinfo : VideoInfo) (m : Memory) (bmp : SizeT) : Prop where
  fb : Disjoint (range vinfo.fb vinfo.fbSize.toNat) img.written
  fb_low : ∀ a ∈ range vinfo.fb vinfo.fbSize.toNat, a.toNat < kPageDirectoryCount * 2 ^ 30
  picture : Disjoint (pictureBytes m bmp) img.written
  picture_low : ∀ a ∈ pictureBytes m bmp, a.toNat < kPageDirectoryCount * 2 ^ 30

/-- The lines of the hardware have no padding, and are all in the frame buffer. -/
structure VideoInfo.Plain (vinfo : VideoInfo) : Prop where
  ppsl : vinfo.ppsl = vinfo.xAxis
  lines : 4 * (vinfo.xAxis.toNat * vinfo.yAxis.toNat) ≤ vinfo.fbSize.toNat

/-- What the hardware shows, in terms of the drawing calls. -/
def Displays (vinfo : VideoInfo) (gFont : AsciiFont) (calls : List DrawCall) (m : Memory) : Prop :=
  ∀ p : Point, p.1 < vinfo.xAxis.toNat → p.2 < vinfo.yAxis.toNat →
    vinfo.hardwarePixel m p = Layer.paint (lastColor gFont calls) (fun _ => white) p

theorem VideoInfo.Plain.offset_lt (h : vinfo.Plain) {p : Point} (hx : p.1 < vinfo.xAxis.toNat)
    (hy : p.2 < vinfo.yAxis.toNat) : 4 * (p.2 * vinfo.ppsl.toNat + p.1) + 2 < vinfo.fbSize.toNat := by
  refine hardware_offset_lt ?_ ?_ hx hy
  · rw [h.ppsl]
  · rw [h.ppsl]
    exact h.lines

theorem Displays.congr {calls : List DrawCall} {m m' : Memory} (h : Displays vinfo gFont calls m) (hplain : vinfo.Plain)
    (hm : Set.EqOn m' m (range vinfo.fb vinfo.fbSize.toNat)) : Displays vinfo gFont calls m' := by
  intro p hx hy
  have hlt := hplain.offset_lt hx hy
  have hsize := vinfo.fbSize.isLt
  rw [← h p hx hy, VideoInfo.hardwarePixel, VideoInfo.hardwarePixel, pixelAt_add, pixelAt_add]
  rw [hm ((add_mem_range (by omega)).2 (by omega)), hm ((add_mem_range (by omega)).2 (by omega)),
    hm ((add_mem_range (by omega)).2 (by omega))]

theorem showPicture_displays (hmode : vinfo.Suits) (hplain : vinfo.Plain)
    (hfits : PictureFits vinfo (ofFile k₀.mem bmp)) (hapart : BuffersApart img vinfo k₀.mem bmp)
    (h : Kernel.Printed img vinfo gFont k₀ (bootLines.take 8) k) :
    ∃ k', k.showPicture img.toKernelObjects gFont (backScreen img.back_fb vinfo) (frontScreen vinfo) bmp = some k' ∧
      k'.sys = k.sys ∧ Set.EqOn k'.mem k.mem (img.drawn ∪ range vinfo.fb vinfo.fbSize.toNat)ᶜ ∧ k'.heap = k₀.heap ∧
      k'.said = bootLines.map (fun line => .print (cString line)) ∧
      k'.con = consoleAfter (backScreen img.back_fb vinfo) k'.said ∧
      Displays vinfo gFont (bootCalls k₀.mem bmp) k'.mem := by
  have hwide := hmode.wide
  have hsize := hmode.size
  have hentries := hmode.entries
  obtain ⟨k₁, h₁, hsys₁, hf₁, hp₁⟩ := h.print hmode "print Mosa.bmp" (by simp [bootLines])
    (by simp [ShortText, cString])
  have hpicture : Set.EqOn k₁.mem k₀.mem (pictureBytes k₀.mem bmp) :=
    frame_apart hp₁.frame hapart.picture
  have hfile : ofFile k₁.mem bmp = ofFile k₀.mem bmp := ofFile_congr (hpicture.mono Set.subset_union_left)
  have hin : (DrawCall.printBmp 200 200 k₁.mem (ofFile k₁.mem bmp)).InRange gFont (backScreen img.back_fb vinfo) := by
    intro p hp
    obtain ⟨-, hx, -, hy⟩ := of_not_not fun hnot => hp (if_neg hnot)
    rw [hfile] at hx hy
    exact ⟨hx.trans_le hfits.width, hy.trans_le hfits.height⟩
  have hcount : (DrawCall.printBmp 200 200 k₁.mem (ofFile k₁.mem bmp)).Counted gFont := by
    have hw := hfits.width
    have hh := hfits.height
    have hkb : kBackFbEntries = 2116800 := rfl
    have hx : vinfo.xAxis.toNat * 1 ≤ vinfo.xAxis.toNat * (vinfo.yAxis.toNat + 17) := Nat.mul_le_mul_left _ (by omega)
    have hy : 1 * (vinfo.yAxis.toNat + 17) ≤ vinfo.xAxis.toNat * (vinfo.yAxis.toNat + 17) :=
      Nat.mul_le_mul_right _ (by omega)
    rw [hfile]
    exact Or.inr (Or.inr ⟨by omega, by omega⟩)
  have hascii : (DrawCall.printBmp 200 200 k₁.mem (ofFile k₁.mem bmp)).IsAscii := trivial
  obtain ⟨k₂, h₂, hsys₂, hf₂, hb₂⟩ := Booting.draw hp₁ hmode hascii hin hcount
    (f := fun m => Screen.printBmp (backScreen img.back_fb vinfo).put 200 200 m (ofFile m bmp) m) rfl
  have hcopy : copyScreen (frontScreen vinfo) (backScreen img.back_fb vinfo) k₂.mem =
      copyMem k₂.mem vinfo.fb img.back_fb vinfo.fbSize.toNat := if_neg (not_not.2 rfl)
  let k₃ : Kernel := { k₂ with mem := copyScreen (frontScreen vinfo) (backScreen img.back_fb vinfo) k₂.mem }
  have hdisplays : Displays vinfo gFont (bootCalls k₀.mem bmp) k₃.mem := by
    intro p hx hy
    have hview := hb₂.view (x := p) ⟨hx, hy⟩
    have hlast : lastColor gFont (squareCalls ++ textCalls (bootLines.map cString) ++
        [.printBmp 200 200 k₁.mem (ofFile k₁.mem bmp)]) = lastColor gFont (bootCalls k₀.mem bmp) := by
      simp only [lastColor, bootCalls, List.map_append, List.map_singleton, printBmp_shape_congr gFont hpicture]
    rw [hardwarePixel_copyScreen _ _ (hplain.offset_lt hx hy), hplain.ppsl, ← hlast]
    exact hview
  have hfb : Disjoint (range vinfo.fb vinfo.fbSize.toNat) (bytesOf img.own) :=
    hapart.fb.mono_right (img.own_subset.trans img.drawn_subset)
  refine ⟨k₃.called img.toKernelObjects, ?_, hsys₂.trans hsys₁, fun a ha => ?_, hb₂.heap, hb₂.said, hb₂.con, ?_⟩
  · unfold showPicture
    exact Option.bind_eq_some_iff.2 ⟨k₁, h₁, Option.bind_eq_some_iff.2 ⟨k₂, h₂, rfl⟩⟩
  · simp only [Set.mem_compl_iff, Set.mem_union, not_or] at ha
    obtain ⟨hdrawn, hout⟩ := ha
    have hcopied : k₃.mem a = k₂.mem a := by
      show copyScreen _ _ k₂.mem a = _
      rw [hcopy]
      exact copyMem_of_notMem hout
    exact (k₃.called_frame _ fun hown => hdrawn (img.own_subset hown)).trans
      (hcopied.trans ((hf₂ hdrawn).trans (hf₁ hdrawn)))
  · exact hdisplays.congr hplain (frame_apart (k₃.called_frame _) hfb)

end MosaOS
