import MosaOS.Heap
import MosaOS.KernelDrawing
import MosaOS.MemoryMap
import MosaOS.PrintFrame
import MosaOS.ScreenList
import MosaOS.Setup
import MosaOS.UefiMain

/-!
# `KernelMain` (`kernel/kernel.cpp`)

`kernelMain` is the function from its first statement to the `hlt` it ends in, cut into what comes before
`copyScreen` and what comes after. The static variables have values of their own here, and every call leaves
something on the stack and in the bytes of the variables (`called`). A line of text changes the back buffer besides
(`Later`).
-/

namespace MosaOS
open ByteMem X86

/-! ### The model -/

/-- The members of `MemoryDescriptor_t` that `KernelMain` reads. -/
def MemoryDescriptor.load (m : Memory) (a : SizeT) : MemoryDescriptor :=
  ⟨readU32 m a, readU64 m (a + 8), readU64 m (a + 24)⟩

/-- The memory map whose descriptors stand at `buffer`. -/
def MemoryMap.load (m : Memory) (buffer mapSize descriptorSize : SizeT) : MemoryMap where
  buffer := buffer.toNat
  mapSize := mapSize.toNat
  descriptorSize := descriptorSize.toNat
  descAt a := .load m (BitVec.ofNat 64 a)

/-- Where the linker put the back buffer too, and the handlers. -/
structure KernelImage extends KernelObjects where
  back_fb : SizeT
  intDefault : SizeT
  intSegFault : SizeT
  back_image : range back_fb kBackFbBytes ⊆ bytesOf image
  back_tables : Disjoint (range back_fb kBackFbBytes) toTableObjects.bytes
  back_own : Disjoint (range back_fb kBackFbBytes) (bytesOf own)

/-- What is written to when a line of text is printed. -/
def KernelImage.drawn (img : KernelImage) : Set SizeT := range img.back_fb kBackFbBytes ∪ bytesOf img.own

/-- All that `KernelMain` writes to but the frame buffer. -/
def KernelImage.written (img : KernelImage) : Set SizeT := img.drawn ∪ img.bytes

/-- What `KernelMain` changes. The static variables are fields, also those whose bytes are in `own`. `said` notes the
calls of `print` and `printd`. -/
structure Kernel extends Machine where
  screens : ScreenManager
  con : Console
  heap : Heap
  said : List ConsoleCall

namespace Kernel

section
variable (o : KernelObjects)

/-- At the end of a call. -/
def called (k : Kernel) : Kernel := { k with toMachine := k.toMachine.called o }

def draw (f : Memory → Option Memory) (k : Kernel) : Option Kernel := (f k.mem).map fun mem => { k with mem }.called o

/-- A call that changes the processor and the tables. -/
def processor (f : Machine → Option Machine) (k : Kernel) : Option Kernel :=
  (f k.toMachine).map fun machine => { k with toMachine := machine }

def withHeap (k : Kernel) (heap : Heap) : Kernel := { k with heap }.called o

def withManager (k : Kernel) (mm : BitmapMemoryManager) : Kernel := k.withHeap o { k.heap with mm }

variable (gFont : AsciiFont) (gScreen : Screen)

def call (k : Kernel) (c : ConsoleCall) : Option Kernel :=
  (c.run gScreen.put gFont gScreen (k.con, k.mem)).map fun (con, mem) =>
    { k with con, mem, said := k.said ++ [c] }.called o

def print (line : String) (k : Kernel) : Option Kernel := k.call o gFont gScreen (.print (cString line))

def printd (line : String) (k : Kernel) : Option Kernel := k.call o gFont gScreen (.printd (cString line))

def drawBackground (frame : Screen) (k : Kernel) : Option Kernel := do
  let k ← k.draw o (fillScreen gScreen.put frame)
  let k ← k.draw o (Screen.writeSquare gScreen.put 100 100 200 200 ⟨0, 0xff, 0⟩)
  k.draw o (Screen.writeSquare gScreen.put 150 150 170 230 ⟨0, 0, 0xff⟩)

def setUpProcessor (intDefault intSegFault : SizeT) (k : Kernel) : Option Kernel := do
  let k ← k.print o gFont gScreen "Setup Segments."
  let k ← k.processor (·.setupSegments o)
  let k ← k.processor (·.setDSAll o 0)
  let k ← k.processor (·.setCSSS o kernelCs kernelSs)
  let k ← k.print o gFont gScreen "finished."
  let k ← k.print o gFont gScreen "Setup Paging."
  let k ← k.processor (·.setupIdentityPageTable o)
  let k ← k.print o gFont gScreen "finished."
  let k ← k.print o gFont gScreen "init interrupt"
  let k ← k.processor (·.initializeInterrupt o intDefault intSegFault)
  k.print o gFont gScreen "finished."

def showPicture (frame : Screen) (bmp : SizeT) (k : Kernel) : Option Kernel := do
  let k ← k.print o gFont gScreen "print Mosa.bmp"
  let k ← k.draw o fun m => Screen.printBmp gScreen.put 200 200 m (.ofFile m bmp) m
  k.draw o fun m => some (copyScreen frame gScreen m)

/-- The body of the loop over the memory map, up to its last statement. -/
def scanDescriptor (availableEnd : SizeT) (desc : MemoryDescriptor) (k : Kernel) : Option (SizeT × Kernel) := do
  let mm ← markGap ⟨k.heap.mm, availableEnd⟩ desc
  let k := k.withManager o mm
  let physicalEnd := desc.physicalStart + desc.numberOfPages * kUEFIPageSize
  if isAvailable desc.type then
    some (physicalEnd, k)
  else
    let k ← k.print o gFont gScreen "un-available"
    let mm ← k.heap.mm.markAllocated ⟨desc.physicalStart / kBytesPerFrame⟩
      (desc.numberOfPages * kUEFIPageSize / kBytesPerFrame)
    some (availableEnd, k.withManager o mm)

/-- The loop, `none` when it does not end. The descriptors are read as the loop comes to them. -/
def scanLoop (stop descriptorSize : ℕ) : ℕ → ℕ → SizeT → Kernel → Option (SizeT × Kernel)
  | 0, iter, availableEnd, k => if iter < stop then none else some (availableEnd, k)
  | fuel + 1, iter, availableEnd, k =>
    if iter < stop then do
      let (availableEnd, k) ← k.scanDescriptor o gFont gScreen availableEnd (.load k.mem (BitVec.ofNat 64 iter))
      let iter := iter + descriptorSize
      scanLoop stop descriptorSize fuel (iter + descriptorSize) availableEnd k
    else some (availableEnd, k)

def setUpMemory (buffer mapSize descriptorSize : SizeT) (k : Kernel) : Option Kernel := do
  let k ← k.print o gFont gScreen "Setup Memory Manager."
  let k := k.withManager o (.construct k.heap.mm.allocMap)
  let (availableEnd, k) ← scanLoop o gFont gScreen (buffer.toNat + mapSize.toNat) descriptorSize.toNat
    mapSize.toNat buffer.toNat 0 k
  let k ← k.printd o gFont gScreen "for loop finished."
  let k := k.withManager o (k.heap.mm.setMemoryRange ⟨1⟩ ⟨availableEnd / kBytesPerFrame⟩)
  let k ← k.print o gFont gScreen "finished."
  if availableEnd / kBytesPerFrame > 64 then k.print o gFont gScreen "over 64"
  else k.print o gFont gScreen "less than 64"

/-- The kernel halts after this, with a heap or without one. -/
def setUpHeap (k : Kernel) : Option Kernel := do
  let k ← k.print o gFont gScreen "init heap."
  let (err, heap) ← initializeHeap k.heap
  let k := k.withHeap o heap
  if err.toBool then
    let k ← k.printd o gFont gScreen "InitializeHeap failed."
    k.printd o gFont gScreen err.name
  else k.print o gFont gScreen "finished."

end

end Kernel

open Kernel in
/-- `KernelMain`. The descriptors of the memory map stand at `memmapBuf`; `binfo` is what is there when the kernel
starts. The font is copied to the variables of the kernel while it is read. -/
def kernelMain (img : KernelImage) (memmapBuf : SizeT) (binfo : BootInfo) (k : Kernel) : Option Kernel := do
  let o := img.toKernelObjects
  let k := k.called o
  let gFont := AsciiFont.ofFile k.mem binfo.font
  let sm ← initializeScreen img.back_fb binfo.vinfo k.screens
  let frame ← (sm.getScreen 0).map sm.deref
  let gScreen ← (sm.getScreen 1).map sm.deref
  let k ← ({ k with screens := sm }.called o).drawBackground o gScreen frame
  let k ← k.print o gFont gScreen "Hello, World!!"
  let k ← k.print o gFont gScreen "Welcome to MosaOS!!!"
  let k ← k.setUpProcessor o gFont gScreen img.intDefault img.intSegFault
  let k ← k.showPicture o gFont gScreen frame binfo.bmp
  let k ← k.setUpMemory o gFont gScreen memmapBuf binfo.mmap.mapSize binfo.mmap.descriptorSize
  k.setUpHeap o gFont gScreen

/-! ### The drawing calls of a line of text -/

/-- The texts of `KernelMain` are all of this kind. -/
def ShortText (line : List (BitVec 8)) : Prop := line.length ≤ 24 ∧ ∀ b ∈ line, 1 ≤ b.toNat ∧ b.toNat ≤ 127

namespace ConsoleCall

def draws (con : Console) : ConsoleCall → List DrawCall
  | print line => [.writeSquare 0 con.printY (lineWidth line) (con.printY + 16) ⟨0xff, 0xff, 0xff⟩,
      .printLine 0 con.printY ⟨con.printC, 0, 0⟩ line]
  | printd line => [.writeSquare 0 con.printdY (lineWidth line) (con.printdY + 16) ⟨0, 0, 0⟩,
      .printLine 0 con.printdY ⟨0xff, 0, 0⟩ line]

@[simp] theorem isPrint_print (line : List (BitVec 8)) : (print line).isPrint = true := rfl

@[simp] theorem isPrint_printd (line : List (BitVec 8)) : (printd line).isPrint = false := rfl

theorem run_eq {σ : Type} {put : BitVec 32 → BitVec 32 → Color → σ → Option σ} {gFont : AsciiFont}
    {gScreen : Screen} (c : ConsoleCall) (con : Console) (s : σ) : c.run put gFont gScreen (con, s) =
      ((c.draws con).foldlM (fun s (call : DrawCall) => call.draw put gFont s) s).map fun s => (c.after gScreen con, s) := by
  have hpair : ∀ (f g : σ → Option σ) (con' : Console), ((f s).bind fun s => (g s).bind fun s => some (con', s)) =
      ((f s).bind fun s => (g s).bind some).map fun s => (con', s) := by
    intro f g con'
    cases f s with
    | none => rfl
    | some s₁ =>
      simp only [Option.bind_some]
      cases g s₁ with
      | none => rfl
      | some s₂ => rfl
  cases c with
  | print line => exact hpair _ _ _
  | printd line => exact hpair _ _ _

variable {scr : Screen} {gFont : AsciiFont} {c : ConsoleCall} {con : Console}

theorem draws_ok (hshort : ShortText c.line) (hwidth : 192 < scr.xAxis.toNat)
    (hrows : (c.cursor con).toNat + 16 < scr.yAxis.toNat) {call : DrawCall} (hcall : call ∈ c.draws con) :
    call.IsAscii ∧ call.InRange gFont scr ∧ call.Counted gFont := by
  obtain ⟨hlen, hascii⟩ := hshort
  have hwidth : 8 * c.line.length < scr.xAxis.toNat := by omega
  have hbottom : (c.cursor con + 16).toNat = (c.cursor con).toNat + 16 := by
    have := scr.yAxis.isLt
    exact DrawCall.toNat_add_ofNat (k := 16) (by omega)
  have hsquare : ∀ color, (DrawCall.writeSquare 0 (c.cursor con) (lineWidth c.line) (c.cursor con + 16) color).InRange
      gFont scr := by
    intro color p hp
    obtain ⟨-, hx, -, hy⟩ := of_not_not fun hnot => hp (if_neg hnot)
    rw [toNat_lineWidth hwidth] at hx
    rw [hbottom] at hy
    exact ⟨by omega, by omega⟩
  have htext : ∀ color, (DrawCall.printLine 0 (c.cursor con) color c.line).InRange gFont scr := by
    intro color p hp
    obtain ⟨-, hy, hdot⟩ := of_not_not fun hnot => hp (if_neg hnot)
    obtain ⟨hx, font, -, hfont⟩ := DrawCall.textDot_iff.1 hdot
    have hrow := font.lt_of_dot hfont
    have hzero : (0 : BitVec 32).toNat = 0 := rfl
    rw [hzero] at hx
    exact ⟨by omega, by omega⟩
  have hcounted : ∀ color, (DrawCall.printLine 0 (c.cursor con) color c.line).Counted gFont := by
    intro color i j hi
    rw [intLen_of_width hwidth] at hi
    by_contra hdot
    have := (DrawCall.textDot_iff.1 (Bool.eq_true_of_not_eq_false hdot)).1
    omega
  cases c with
  | print line =>
    simp only [draws, List.mem_cons, List.not_mem_nil, or_false] at hcall
    rcases hcall with rfl | rfl
    · exact ⟨trivial, hsquare _, fun h => lineWidth_ne_allOnes line h.1⟩
    · exact ⟨hascii, htext _, hcounted _⟩
  | printd line =>
    simp only [draws, List.mem_cons, List.not_mem_nil, or_false] at hcall
    rcases hcall with rfl | rfl
    · exact ⟨trivial, hsquare _, fun h => lineWidth_ne_allOnes line h.1⟩
    · exact ⟨hascii, htext _, hcounted _⟩

end ConsoleCall

/-! ### Cursors -/

theorem printY_le (gScreen : Screen) (calls : List ConsoleCall) :
    (consoleAfter gScreen calls).printY.toNat ≤ gScreen.yAxis.toNat := by
  induction calls using List.reverseRecOn with
  | nil => exact Nat.zero_le _
  | append_singleton calls c ih =>
    rw [consoleAfter_snoc]
    cases c with
    | printd line => exact ih
    | print line =>
      simp only [ConsoleCall.after, Console.afterPrint]
      split
      · exact Nat.zero_le _
      · rename_i h
        exact BitVec.le_def.1 (BitVec.not_lt.1 h)

/-- Lines that fit on the screen stand one below the other, in black. -/
theorem consoleAfter_prints {gScreen : Screen} {lines : List (List (BitVec 8))}
    (h : lines.length ≤ gScreen.yAxis.toNat / 16) :
    consoleAfter gScreen (lines.map .print) = ⟨BitVec.ofNat 32 (16 * lines.length), 0, 0⟩ := by
  have hheight := gScreen.yAxis.isLt
  induction lines using List.reverseRecOn with
  | nil => rfl
  | append_singleton lines line ih =>
    rw [List.length_append, List.length_singleton] at h ⊢
    have hin : ¬ BitVec.ofNat 32 (16 * lines.length) + 16 > gScreen.yAxis := by
      rw [← ofNat_succ, gt_iff_lt, BitVec.lt_def, BitVec.toNat_ofNat]
      omega
    rw [List.map_append, List.map_singleton, consoleAfter_snoc, ih (by omega)]
    simp only [ConsoleCall.after, Console.afterPrint, if_neg hin, ofNat_succ]

/-! ### The back buffer -/

/-- The screen with the rows below it that `print` writes to before it goes back to the top. -/
def Screen.lowered (scr : Screen) : Screen := { scr with yAxis := scr.yAxis + 17 }

/-- There is room on the screen for all that is drawn before `copyScreen`, and in the back buffer for the rows
below the screen too. -/
structure VideoInfo.Suits (vinfo : VideoInfo) : Prop where
  wide : 200 < vinfo.xAxis.toNat
  high : 230 < vinfo.yAxis.toNat
  entries : vinfo.xAxis.toNat * (vinfo.yAxis.toNat + 17) ≤ kBackFbEntries
  size : vinfo.fbSize.toNat ≤ kBackFbBytes

variable {img : KernelImage} {vinfo : VideoInfo} {gFont : AsciiFont} {k : Kernel} {c : ConsoleCall}

namespace VideoInfo.Suits

theorem yAxis_lowered (h : vinfo.Suits) (back_fb : SizeT) :
    (backScreen back_fb vinfo).lowered.yAxis.toNat = vinfo.yAxis.toNat + 17 := by
  have hentries := h.entries
  have hwide := h.wide
  have hcount : kBackFbEntries = 2116800 := rfl
  have hmul : 1 * (vinfo.yAxis.toNat + 17) ≤ vinfo.xAxis.toNat * (vinfo.yAxis.toNat + 17) :=
    Nat.mul_le_mul_right _ (by omega)
  have hlt : vinfo.yAxis.toNat + 17 < 2 ^ 32 := by omega
  exact DrawCall.toNat_add_ofNat hlt

theorem fits_lowered (h : vinfo.Suits) (back_fb : SizeT) : (backScreen back_fb vinfo).lowered.Fits := by
  have hentries := h.entries
  have hcount : kBackFbEntries = 2116800 := rfl
  rw [Screen.Fits, h.yAxis_lowered]
  show vinfo.xAxis.toNat * (vinfo.yAxis.toNat + 17) ≤ _
  omega

theorem fits (h : vinfo.Suits) (back_fb : SizeT) : (backScreen back_fb vinfo).Fits := by
  have hentries := h.entries
  have hcount : kBackFbEntries = 2116800 := rfl
  have hmul : vinfo.xAxis.toNat * vinfo.yAxis.toNat ≤ vinfo.xAxis.toNat * (vinfo.yAxis.toNat + 17) :=
    Nat.mul_le_mul_left _ (by omega)
  show vinfo.xAxis.toNat * vinfo.yAxis.toNat ≤ _
  omega

theorem colorBytes_lowered (h : vinfo.Suits) (back_fb : SizeT) :
    (backScreen back_fb vinfo).lowered.colorBytes ⊆ range back_fb kBackFbBytes := by
  have hentries := h.entries
  have hbytes : kBackFbBytes = 4 * kBackFbEntries := rfl
  refine Screen.colorBytes_subset.trans (range_mono ?_)
  rw [h.yAxis_lowered]
  show 4 * (vinfo.xAxis.toNat * (vinfo.yAxis.toNat + 17)) ≤ _
  omega

theorem colorBytes (h : vinfo.Suits) (back_fb : SizeT) :
    (backScreen back_fb vinfo).colorBytes ⊆ range back_fb kBackFbBytes := by
  have hentries := h.entries
  have hbytes : kBackFbBytes = 4 * kBackFbEntries := rfl
  have hmul : vinfo.xAxis.toNat * vinfo.yAxis.toNat ≤ vinfo.xAxis.toNat * (vinfo.yAxis.toNat + 17) :=
    Nat.mul_le_mul_left _ (by omega)
  refine Screen.colorBytes_subset.trans (range_mono ?_)
  show 4 * (vinfo.xAxis.toNat * vinfo.yAxis.toNat) ≤ _
  omega

end VideoInfo.Suits

theorem Screen.view_congr {scr : Screen} {m m' : Memory} (h : Set.EqOn m' m scr.colorBytes) :
    Set.EqOn (scr.view m') (scr.view m) scr.onScreen := by
  intro p hp
  have hbyte : ∀ i < 3, m' (scr.fb + BitVec.ofNat 64 (4 * scr.offset p + i)) =
      m (scr.fb + BitVec.ofNat 64 (4 * scr.offset p + i)) := fun i hi => h ⟨p, hp, i, hi, rfl⟩
  have hzero := hbyte 0 (by simp)
  rw [Nat.add_zero] at hzero
  rw [Screen.view, Screen.view, pixelAt_add, pixelAt_add, hbyte 2 (by simp), hbyte 1 (by simp), hzero]

namespace KernelImage

theorem own_subset (img : KernelImage) : bytesOf img.own ⊆ img.drawn := Set.subset_union_right

theorem drawn_subset (img : KernelImage) : img.drawn ⊆ img.written := Set.subset_union_left

theorem bytes_subset (img : KernelImage) : img.bytes ⊆ img.written := Set.subset_union_right

/-- No line of text is written over the tables. -/
theorem drawn_tables (img : KernelImage) : Disjoint img.drawn img.bytes :=
  Set.disjoint_union_left.2 ⟨img.back_tables, img.own_tables⟩

theorem written_image (img : KernelImage) : img.written ⊆ bytesOf img.image :=
  Set.union_subset (Set.union_subset img.back_image img.own_image) img.tables_image

end KernelImage

namespace Kernel

theorem called_frame (o : KernelObjects) (k : Kernel) : Set.EqOn (k.called o).mem k.mem (bytesOf o.own)ᶜ :=
  k.toMachine.called_frame o

/-- What is on the screen of the back buffer stays there at the end of a call. -/
theorem called_view (T : Screen) (hback : T.colorBytes ⊆ range img.back_fb kBackFbBytes) :
    Set.EqOn (T.view (k.called img.toKernelObjects).mem) (T.view k.mem) T.onScreen :=
  Screen.view_congr (frame_apart (k.called_frame _) (img.back_own.mono_left hback))

/-- A drawing call, from what it does to the memory. -/
theorem called_drawn {S : Set SizeT} {m₀ : Memory} (h : Set.EqOn k.mem m₀ Sᶜ) (hS : S ⊆ range img.back_fb kBackFbBytes) :
    Set.EqOn (k.called img.toKernelObjects).mem m₀ img.drawnᶜ := by
  intro a ha
  rw [Set.mem_compl_iff, KernelImage.drawn, Set.mem_union, not_or] at ha
  exact (k.called_frame _ ha.2).trans (h fun hin => ha.1 (hS hin))

theorem call_spec (gFont : AsciiFont) (T : Screen) {scr : Screen} (hput : T.put = scr.put) (hfit : T.Fits)
    (hback : T.colorBytes ⊆ range img.back_fb kBackFbBytes) (hshort : ShortText c.line)
    (hwidth : 192 < T.xAxis.toNat) (hrows : (c.cursor k.con).toNat + 16 < T.yAxis.toNat) :
    ∃ k', k.call img.toKernelObjects gFont scr c = some k' ∧ k'.sys = k.sys ∧ k'.heap = k.heap ∧
      k'.con = c.after scr k.con ∧ k'.said = k.said ++ [c] ∧
      Set.EqOn (T.view k'.mem) (Layer.paint (lastColor gFont (c.draws k.con)) (T.view k.mem)) T.onScreen ∧
      Set.EqOn k'.mem k.mem img.drawnᶜ := by
  have hok : ∀ call ∈ c.draws k.con, call.IsAscii ∧ call.InRange gFont T ∧ call.Counted gFont :=
    fun call hcall => ConsoleCall.draws_ok hshort hwidth hrows hcall
  obtain ⟨m', hrun, hview, hframe⟩ := draws_view hfit hok k.mem
  let k₁ : Kernel := { k with con := c.after scr k.con, mem := m', said := k.said ++ [c] }
  refine ⟨k₁.called img.toKernelObjects, ?_, rfl, rfl, rfl, rfl, (k₁.called_view T hback).trans hview,
    k₁.called_drawn hframe hback⟩
  rw [hput] at hrun
  rw [Kernel.call, ConsoleCall.run_eq, hrun]
  rfl

/-- Since `k` there has been nothing but text, and `calls` have been made. -/
structure Later (img : KernelImage) (gScreen : Screen) (calls : List ConsoleCall) (k k' : Kernel) : Prop where
  sys : k'.sys = k.sys
  said : k'.said = k.said ++ calls
  con : k'.con = consoleAfter gScreen k'.said
  frame : Set.EqOn k'.mem k.mem img.drawnᶜ

theorem call_later (gFont : AsciiFont) (hmode : vinfo.Suits)
    (hcon : k.con = consoleAfter (backScreen img.back_fb vinfo) k.said) (hshort : ShortText c.line)
    (hprintd : c.isPrint = false → k.said.countP (!·.isPrint) ≤ 2) :
    ∃ k', k.call img.toKernelObjects gFont (backScreen img.back_fb vinfo) c = some k' ∧ k'.heap = k.heap ∧
      Later img (backScreen img.back_fb vinfo) [c] k k' := by
  have hwide := hmode.wide
  have hhigh := hmode.high
  have hlowered := hmode.yAxis_lowered img.back_fb
  have hrows : (c.cursor k.con).toNat + 16 < (backScreen img.back_fb vinfo).lowered.yAxis.toNat := by
    rw [hlowered, hcon]
    cases c with
    | print line =>
      have hle := printY_le (backScreen img.back_fb vinfo) k.said
      have hheight : (backScreen img.back_fb vinfo).yAxis.toNat = vinfo.yAxis.toNat := rfl
      show (consoleAfter _ k.said).printY.toNat + 16 < _
      omega
    | printd line =>
      have hcount := hprintd rfl
      show (consoleAfter _ k.said).printdY.toNat + 16 < _
      rw [printdY_consoleAfter, BitVec.toNat_ofNat]
      omega
  have hput : (backScreen img.back_fb vinfo).lowered.put = (backScreen img.back_fb vinfo).put := rfl
  obtain ⟨k', hcall, hsys, hheap, hcon', hsaid, -, hframe⟩ := call_spec gFont _ hput (hmode.fits_lowered img.back_fb)
    (hmode.colorBytes_lowered img.back_fb) hshort (show 192 < vinfo.xAxis.toNat by omega) hrows
  refine ⟨k', hcall, hheap, hsys, hsaid, ?_, hframe⟩
  rw [hcon', hsaid, consoleAfter_snoc, ← hcon]

theorem print_later (gFont : AsciiFont) (hmode : vinfo.Suits)
    (hcon : k.con = consoleAfter (backScreen img.back_fb vinfo) k.said) (line : String)
    (hshort : ShortText (cString line)) :
    ∃ k', k.print img.toKernelObjects gFont (backScreen img.back_fb vinfo) line = some k' ∧ k'.heap = k.heap ∧
      Later img (backScreen img.back_fb vinfo) [.print (cString line)] k k' :=
  call_later gFont hmode hcon hshort (by simp)

theorem printd_later (gFont : AsciiFont) (hmode : vinfo.Suits)
    (hcon : k.con = consoleAfter (backScreen img.back_fb vinfo) k.said) (line : String)
    (hshort : ShortText (cString line)) (hsaid : k.said.countP (!·.isPrint) ≤ 2) :
    ∃ k', k.printd img.toKernelObjects gFont (backScreen img.back_fb vinfo) line = some k' ∧ k'.heap = k.heap ∧
      Later img (backScreen img.back_fb vinfo) [.printd (cString line)] k k' :=
  call_later gFont hmode hcon hshort fun _ => hsaid

/-! ### Up to `copyScreen` -/

/-- The two squares over the white screen. -/
def squareCalls : List DrawCall :=
  [.writeSquare 100 100 200 200 ⟨0, 0xff, 0⟩, .writeSquare 150 150 170 230 ⟨0, 0, 0xff⟩]

/-- Line number `l` of the screen. -/
def lineCalls (l : ℕ) (line : List (BitVec 8)) : List DrawCall :=
  [.writeSquare 0 (BitVec.ofNat 32 (16 * l)) (lineWidth line) (BitVec.ofNat 32 (16 * l) + 16) white,
    .printLine 0 (BitVec.ofNat 32 (16 * l)) ⟨0, 0, 0⟩ line]

/-- The kernel has made `calls` on the white screen, and printed `lines`. -/
structure Booting (img : KernelImage) (vinfo : VideoInfo) (gFont : AsciiFont) (k₀ : Kernel)
    (calls : List DrawCall) (lines : List (List (BitVec 8))) (k : Kernel) : Prop where
  con : k.con = consoleAfter (backScreen img.back_fb vinfo) k.said
  said : k.said = lines.map .print
  heap : k.heap = k₀.heap
  view : Set.EqOn ((backScreen img.back_fb vinfo).view k.mem) (Layer.paint (lastColor gFont calls) fun _ => white)
    (backScreen img.back_fb vinfo).onScreen
  frame : Set.EqOn k.mem k₀.mem img.writtenᶜ

variable {k₀ k' : Kernel} {calls ds : List DrawCall} {lines : List (List (BitVec 8))}

theorem lastColor_append (f : Point → Color) : Layer.paint (lastColor gFont (calls ++ ds)) f =
    Layer.paint (lastColor gFont ds) (Layer.paint (lastColor gFont calls) f) := by
  rw [lastColor, List.map_append, Layer.paint_stack_append]
  rfl

theorem Booting.draw (h : Booting img vinfo gFont k₀ calls lines k) (hmode : vinfo.Suits) {call : DrawCall}
    (hascii : call.IsAscii) (hin : call.InRange gFont (backScreen img.back_fb vinfo)) (hcount : call.Counted gFont)
    {f : Memory → Option Memory} (hf : f k.mem = call.draw (backScreen img.back_fb vinfo).put gFont k.mem) :
    ∃ k', k.draw img.toKernelObjects f = some k' ∧ k'.sys = k.sys ∧ Set.EqOn k'.mem k.mem img.drawnᶜ ∧
      Booting img vinfo gFont k₀ (calls ++ [call]) lines k' := by
  have hback := hmode.colorBytes img.back_fb
  obtain ⟨m', hdraw, hview, hframe⟩ := DrawCall.draw_view (hmode.fits img.back_fb) hin hcount hascii k.mem
  let k₁ : Kernel := { k with mem := m' }
  have hframe : Set.EqOn (k₁.called img.toKernelObjects).mem k.mem img.drawnᶜ := k₁.called_drawn hframe hback
  refine ⟨k₁.called img.toKernelObjects, ?_, rfl, hframe, h.con, h.said, h.heap, ?_, ?_⟩
  · rw [Kernel.draw, hf, hdraw]
    rfl
  · intro p hp
    have hone : lastColor gFont [call] = call.shape gFont := by
      funext p
      exact Layer.stack_singleton
    rw [k₁.called_view _ hback hp, lastColor_append, hview hp, hone, Layer.paint, Layer.paint, h.view hp]
  · exact (hframe.mono (Set.compl_subset_compl.2 img.drawn_subset)).trans h.frame

theorem Booting.print (h : Booting img vinfo gFont k₀ calls lines k) (hmode : vinfo.Suits) (line : String)
    (hfew : lines.length ≤ 8) (hshort : ShortText (cString line)) :
    ∃ k', k.print img.toKernelObjects gFont (backScreen img.back_fb vinfo) line = some k' ∧ k'.sys = k.sys ∧
      Set.EqOn k'.mem k.mem img.drawnᶜ ∧
      Booting img vinfo gFont k₀ (calls ++ lineCalls lines.length (cString line)) (lines ++ [cString line]) k' := by
  have hwide := hmode.wide
  have hhigh := hmode.high
  have hcursor : k.con = ⟨BitVec.ofNat 32 (16 * lines.length), 0, 0⟩ := by
    rw [h.con, h.said]
    refine consoleAfter_prints ?_
    show lines.length ≤ vinfo.yAxis.toNat / 16
    omega
  have hrows : ((ConsoleCall.print (cString line)).cursor k.con).toNat + 16 <
      (backScreen img.back_fb vinfo).yAxis.toNat := by
    rw [hcursor]
    show (BitVec.ofNat 32 (16 * lines.length)).toNat + 16 < vinfo.yAxis.toNat
    rw [BitVec.toNat_ofNat]
    omega
  obtain ⟨k', hcall, hsys, hheap, hcon, hsaid, hview, hframe⟩ := call_spec (c := .print (cString line)) gFont
    (backScreen img.back_fb vinfo) rfl (hmode.fits img.back_fb) (hmode.colorBytes img.back_fb) hshort
    (show 192 < vinfo.xAxis.toNat by omega) hrows
  have hdraws : (ConsoleCall.print (cString line)).draws k.con = lineCalls lines.length (cString line) := by
    rw [hcursor]
    rfl
  refine ⟨k', hcall, hsys, hframe, ?_, ?_, hheap.trans h.heap, ?_, ?_⟩
  · rw [hcon, hsaid, consoleAfter_snoc, ← h.con]
  · rw [hsaid, h.said, List.map_append, List.map_singleton]
  · intro p hp
    rw [lastColor_append, hview hp, hdraws, Layer.paint, Layer.paint, h.view hp]
  · exact (hframe.mono (Set.compl_subset_compl.2 img.drawn_subset)).trans h.frame

/-- What is in the tables and in the variables is not on the screen. -/
theorem Booting.processor (h : Booting img vinfo gFont k₀ calls lines k) (hmode : vinfo.Suits)
    {f : Machine → Option Machine} {machine : Machine} (hf : f k.toMachine = some machine) {S : Set SizeT}
    (hS : S ⊆ img.bytes) (hmem : Set.EqOn machine.mem k.mem (S ∪ bytesOf img.own)ᶜ) :
    ∃ k', k.processor f = some k' ∧ k'.toMachine = machine ∧ Booting img vinfo gFont k₀ calls lines k' := by
  have hback : Disjoint (range img.back_fb kBackFbBytes) (S ∪ bytesOf img.own) :=
    Set.disjoint_union_right.2 ⟨img.back_tables.mono_right hS, img.back_own⟩
  have hout : S ∪ bytesOf img.own ⊆ img.written :=
    Set.union_subset (hS.trans img.bytes_subset) (img.own_subset.trans img.drawn_subset)
  refine ⟨{ k with toMachine := machine }, ?_, rfl, h.con, h.said, h.heap, fun p hp => ?_, ?_⟩
  · rw [Kernel.processor, hf]
    rfl
  · have hcolor : Set.EqOn machine.mem k.mem (backScreen img.back_fb vinfo).colorBytes :=
      frame_apart hmem (hback.mono_left (hmode.colorBytes img.back_fb))
    exact (Screen.view_congr hcolor hp).trans (h.view hp)
  · exact (hmem.mono (Set.compl_subset_compl.2 hout)).trans h.frame

end Kernel

end MosaOS
