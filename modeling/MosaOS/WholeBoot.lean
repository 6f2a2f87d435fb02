import MosaOS.BootFiles

/-!
# From the files of the boot volume to the screen

`UefiMain` leaves the files in memory and jumps into the kernel file, `entry_point` calls `KernelMain`, and this draws.
`boot_displays_files` says that it comes to its end, and what is shown then, in terms of the files alone.
-/

namespace MosaOS
open ByteMem X86 BitMapImage Kernel MakeFont

/-- The kernel when `KernelMain` is called. The static variables of the drawing functions are zero; what is in the
memory manager, in the variables of the heap and on the stack does not matter. -/
def Kernel.entered (t : State) (scratch : ℕ → Memory) (heap : Heap) : Kernel where
  sys := t.sys
  mem := t.mem
  scratch
  screens := ScreenList.zeroed
  con := .start
  heap
  said := []

/-- The memory map as the firmware hands it over, wherever its buffer is. -/
def BootInfo.handedMap (binfo : BootInfo) (mapBuffer : SizeT) : MemoryMap :=
  binfo.memoryMap (writeBytes (fun _ => 0) mapBuffer binfo.mmap.buffer) mapBuffer

/-- The mode has no padding, and there is room on the screen and in the back buffer for what is drawn, a picture of
`width` by `height` included. -/
structure VideoInfo.Shows (vinfo : VideoInfo) (width height : BitVec 32) : Prop where
  suits : vinfo.Suits
  plain : vinfo.Plain
  wide : 200 + width.toNat ≤ vinfo.xAxis.toNat
  high : 200 + height.toNat ≤ vinfo.yAxis.toNat

/-- The state `u` in which the loader jumps into the kernel. The memory is as `LoadKernel` left it but for `work`, the
stack of the loader with the memory map. -/
structure Handover (bs : EfiServices) (m : Memory) (start : KernelStart) (mapBuffer : SizeT) (work : Set SizeT)
    (u : State) : Prop where
  jump : BytesAt u.mem u.rip [0xff, 0xe6]
  entry : u.reg .rsi = start.kernelAddr
  mem : Set.EqOn u.mem start.mem workᶜ
  work_files : Disjoint work (bs.place .font ∪ bs.place .bmp)
  work_segments : Disjoint work (bs.segments m)
  map : BytesAt u.mem mapBuffer start.bootinfo.mmap.buffer
  map_work : range mapBuffer start.bootinfo.mmap.buffer.length ⊆ work
  map_le : start.bootinfo.mmap.buffer.length ≤ 2 ^ 64
  map_size : start.bootinfo.mmap.mapSize.toNat ≤ start.bootinfo.mmap.buffer.length
  map_entries : 32 ≤ start.bootinfo.mmap.descriptorSize.toNat

/-- The objects of the kernel are in its segments, its stack among them. -/
structure Linked (img : KernelImage) (bs : EfiServices) (m : Memory) (stack : SizeT) : Prop where
  image : bytesOf img.image ⊆ bs.segments m
  stack : range stack kernelMainStackBytes.toNat ⊆ bytesOf img.own

/-- The frame buffer is apart from the rest, and the buffers that `KernelMain` uses are below 64 GiB. -/
structure BuffersMapped (bs : EfiServices) (m : Memory) (start : KernelStart) (mapBuffer : SizeT) (work : Set SizeT) :
    Prop where
  fb : Disjoint (range start.bootinfo.vinfo.fb start.bootinfo.vinfo.fbSize.toNat) (bs.segments m ∪ work)
  low : ∀ a ∈ range start.bootinfo.vinfo.fb start.bootinfo.vinfo.fbSize.toNat ∪ bs.place .bmp ∪
    range mapBuffer start.bootinfo.mmap.buffer.length, a.toNat < kPageDirectoryCount * 2 ^ 30

section
variable {bs : EfiServices} {m : Memory} {start : KernelStart} {mapBuffer stack kernelMainAddr fin : SizeT}
  {work : Set SizeT} {u t : State} {img : KernelImage} {width height : BitVec 32} {bits : BitVec 16}
  {pic : ℕ → ℕ → Color} {count len : ℕ} {scratch : ℕ → Memory} {heap : Heap}

theorem Linked.written (h : Linked img bs m stack) : img.written ⊆ bs.segments m := img.written_image.trans h.image

/-- `entry_point` writes to the stack of the kernel only. -/
theorem Linked.entered (h : Linked img bs m stack) (ht : KernelEntry stack kernelMainAddr fin u t) {S : Set SizeT}
    (hS : Disjoint S (bs.segments m)) : Set.EqOn t.mem u.mem S := by
  refine frame_apart ht.mem (hS.mono_right ?_)
  exact (ht.stack.trans h.stack).trans (img.own_image.trans h.image)

theorem bootable_entered (hlinked : Linked img bs m stack) (hfiles : bs.FilesApart m)
    (hreach : BuffersMapped bs m start mapBuffer work) (hshows : start.bootinfo.vinfo.Shows width height)
    (hlen : (bs.bytes .bmp).length = len) (hbuffer : start.bootinfo.bmp = bs.buffer .bmp)
    (hfont : start.bootinfo.font = bs.buffer .font) (hfontLen : AsciiFont.fileBytes ≤ (bs.bytes .font).length)
    (hfile : PictureFile pic width height bits t.mem (bs.buffer .bmp) len) :
    Bootable img start.bootinfo (.entered t scratch heap) := by
  have hplace : pictureBytes t.mem start.bootinfo.bmp ⊆ bs.place .bmp := by
    rw [hbuffer, EfiServices.place, hlen]
    exact hfile.pictureBytes_subset
  have hbmp : Disjoint (bs.place .bmp) (bs.segments m) :=
    (hfiles.segments.mono_right Set.subset_union_right).symm
  refine ⟨rfl, rfl, rfl, hshows.suits, hshows.plain, ?_, ?_, ?_⟩
  · show PictureFits _ (ofFile t.mem start.bootinfo.bmp)
    rw [hbuffer]
    exact ⟨hfile.ofFile_eq.1 ▸ hshows.wide, hfile.ofFile_eq.2 ▸ hshows.high⟩
  · rw [hfont]
    exact ((hfiles.segments.mono_right Set.subset_union_left).mono (img.own_image.trans hlinked.image)
      (range_mono hfontLen)).symm
  · refine ⟨?_, fun a ha => hreach.low a (Or.inl (Or.inl ha)), ?_, fun a ha => ?_⟩
    · exact hreach.fb.mono_right (hlinked.written.trans Set.subset_union_left)
    · exact (hbmp.mono_right hlinked.written).mono_left hplace
    · exact hreach.low a (Or.inl (Or.inr (hplace ha)))

/-- `KernelMain` finds the memory map that the firmware handed over. -/
theorem map_entered (hlinked : Linked img bs m stack) (hhand : Handover bs m start mapBuffer work u)
    (hreach : BuffersMapped bs m start mapBuffer work) (ht : KernelEntry stack kernelMainAddr fin u t)
    (hv : (start.bootinfo.handedMap mapBuffer).Valid count) :
    (start.bootinfo.memoryMap t.mem mapBuffer).Valid count ∧
      MapApart img start.bootinfo.vinfo (start.bootinfo.memoryMap t.mem mapBuffer) count := by
  have hin : ∀ m', (start.bootinfo.memoryMap m' mapBuffer).bytes count ⊆
      range mapBuffer start.bootinfo.mmap.buffer.length := fun m' =>
    MemoryMap.bytes_subset hhand.map_entries hv.mapSize_eq hhand.map_size hhand.map_le
  have hbuffer : Set.EqOn t.mem u.mem (range mapBuffer start.bootinfo.mmap.buffer.length) :=
    hlinked.entered ht (hhand.work_segments.mono_left hhand.map_work)
  have hsame : Set.EqOn u.mem (writeBytes (fun _ => 0) mapBuffer start.bootinfo.mmap.buffer)
      (range mapBuffer start.bootinfo.mmap.buffer.length) := by
    intro a ha
    obtain ⟨i, hi, -, rfl⟩ := exists_of_mem_range ha
    rw [hhand.map i hi, bytesAt_writeBytes _ _ hhand.map_le i hi]
  refine ⟨hv.load_congr ((hbuffer.trans hsame).mono (hin _)), ?_, fun a ha => hreach.low a (Or.inr (hin _ ha))⟩
  have hwork := (hin t.mem).trans hhand.map_work
  refine Set.disjoint_union_right.2 ⟨?_, ?_⟩
  · exact (hhand.work_segments.mono_left hwork).mono_right hlinked.written
  · exact ((hreach.fb.mono_right Set.subset_union_right).symm).mono_left hwork

end

/-- A picture of one pixel of 32 bits. -/
def onePixelFile : Text :=
  leBytes 10 0 ++ leBytes 4 54 ++ leBytes 4 40 ++ leBytes 4 1 ++ leBytes 4 1 ++ leBytes 2 1 ++ leBytes 2 32 ++
    leBytes 4 0 ++ leBytes 20 0 ++ [1, 2, 3, 0]

theorem onePixelFile_picture {m : Memory} {a : SizeT} (h : BytesAt m a onePixelFile) :
    PictureFile (fun _ _ => ⟨3, 2, 1⟩) 1 1 32 m a onePixelFile.length := by
  have hlen : onePixelFile.length = 58 := rfl
  have hread : ∀ o v : ℕ, (∀ i < 4, onePixelFile[o + i]? = some (BitVec.ofNat 8 (v / 256 ^ i))) → v < 256 ^ 4 →
      readU32 m (a + BitVec.ofNat 64 o) = BitVec.ofNat 32 v := by
    intro o v hv hlt
    rw [readU32, h.readNat_eq hv, Nat.mod_eq_of_lt hlt]
  have hplace : ∀ k, a + sizeofBMHeader + BitVec.ofNat 64 k = a + BitVec.ofNat 64 (14 + k) := fun k => add_ofNat a 14 k
  have hoff : bfOffBits m a = 54 := hread 10 54 (by decide) (by simp)
  have hwidth : bcWidth m (a + sizeofBMHeader) = 1 := by
    refine (congrArg (readU32 m) (hplace 4)).trans ?_
    exact hread 18 1 (by decide) (by simp)
  have hheight : bcHeight m (a + sizeofBMHeader) = 1 := by
    refine (congrArg (readU32 m) (hplace 8)).trans ?_
    exact hread 22 1 (by decide) (by simp)
  have hcompression : biCompression m (a + sizeofBMHeader) = 0 := by
    refine (congrArg (readU32 m) (hplace 16)).trans ?_
    exact hread 30 0 (by decide) (by simp)
  have hbits : bcBitCount m (a + sizeofBMHeader) = 32 := by
    refine (congrArg (readU16 m) (hplace 14)).trans ?_
    exact congrArg (BitVec.ofNat 16) (h.readNat_eq (o := 28) (v := 32) (by decide))
  have hpixel : storedPixel m a 0 0 = ⟨3, 2, 1⟩ := by
    have hblue : m (a + BitVec.ofNat 64 54) = 1 := h 54 (by simp [hlen])
    have hgreen : m (a + BitVec.ofNat 64 (54 + 1)) = 2 := h 55 (by simp [hlen])
    have hred : m (a + BitVec.ofNat 64 (54 + 2)) = 3 := h 56 (by simp [hlen])
    have hoffset : storedPixel m a 0 0 = pixelAt m (a + BitVec.ofNat 64 54) := by simp [storedPixel, hoff]
    rw [hoffset, pixelAt_add, hblue, hgreen, hred]
  refine ⟨⟨hwidth, hheight, hbits, hcompression, ?_⟩, Or.inr rfl, by decide, by simp, by simp [rowSize], ?_, ?_, ?_⟩
  · rw [hoff]
    rfl
  · rw [hoff]
    simp [rowSize, hlen]
  · rw [hlen]
    simp
  · intro x hx y hy
    obtain rfl : x = 0 := Nat.lt_one_iff.1 hx
    obtain rfl : y = 0 := Nat.lt_one_iff.1 hy
    exact hpixel

/-- Every character is a full square. -/
def squareFont : FontText where
  before := []
  block _ :=
    { digits := [0x30]
      rest := []
      row := fun _ _ => commercialAt
      after := []
      digits_ne_nil := by simp
      digits_hex := by simp [isHexDigit]
      rest_line := by simp
      row_nonblank := fun _ _ => rfl
      after_blank := by simp }
  before_blank := by simp

def squareFontFile : Text := List.ofFn fun k : Fin (256 * 16) => packed ((squareFont.block k.divNat).row k.modNat)

theorem makefontfile_squareFont : makefontfile squareFont.text = some squareFontFile := makefontfile_text squareFont

theorem length_squareFontFile : squareFontFile.length = 256 * 16 := List.length_ofFn

/-- A kernel of one segment, whose first bytes are the code of `entry_point`. -/
def lowKernelFile : Text :=
  leBytes 16 0x464c457f ++ leBytes 8 0 ++ leBytes 8 0x100000 ++ leBytes 8 64 ++ leBytes 12 0 ++ leBytes 2 64 ++
    leBytes 2 56 ++ leBytes 2 1 ++ leBytes 6 0 ++ leBytes 4 1 ++ leBytes 4 5 ++ leBytes 8 120 ++ leBytes 8 0x100000 ++
    leBytes 8 0x100000 ++ leBytes 8 18 ++ leBytes 8 0xf00000 ++ leBytes 8 0x1000 ++
    entryPointBytes 0xe30000 0x100100 0x100000

theorem length_lowKernelFile : lowKernelFile.length = 138 := by
  delta lowKernelFile
  simp only [List.length_append, length_leBytes, length_entryPointBytes]

/-- One descriptor, of the 256 MiB from 16 MiB on. -/
def lowMapBytes : Text :=
  leBytes 4 7 ++ leBytes 4 0 ++ leBytes 8 0x1000000 ++ leBytes 8 0 ++ leBytes 8 0x10000 ++ leBytes 16 0

def lowServices : EfiServices where
  locateGop := (0, some 0x1000)
  mode := fun _ => lowBoot.vinfo
  locateSfsp := (0, some 0x2000)
  openVolume := fun _ => (0, some 0x3000)
  openFile := fun _ _ _ => (0, 0x4000)
  getInfo := fun file _ _ =>
    match file with
    | .font => (0, 4096)
    | .bmp => (0, 58)
    | .kernel => (0, 138)
  allocatePool := fun file _ =>
    match file with
    | .font => (0, some 0x10000)
    | .bmp => (0, some 0x7c000)
    | .kernel => (0, some 0x30000)
  read := fun file _ _ _ =>
    match file with
    | .font => (0, squareFontFile)
    | .bmp => (0, onePixelFile)
    | .kernel => (0, lowKernelFile)
  getMemoryMap := fun mmap => (0,
    { mmap with bufferSize := 48, buffer := lowMapBytes, mapKey := 1, descriptorSize := 48, descriptorVersion := 1 })
  exitBootServices := fun _ _ => 0

/-- The memory that `LoadKernel` finds. -/
abbrev lowLoaded : Memory := lowServices.memory lowMemory

theorem lowLoaded_ehdr : readEhdr lowLoaded 0x30000 = ⟨0x100000, 64, 56, 1⟩ := by decide

theorem lowLoaded_phdr : phdr lowLoaded 0x30000 0 = ⟨1, 120, 0x100000, 18, 0xf00000⟩ := by decide

theorem lowLoaded_isLoad {i : ℕ} : IsLoad lowLoaded 0x30000 i ↔ i = 0 := by
  have hcount : phnum lowLoaded 0x30000 = 1 := by rw [phnum, lowLoaded_ehdr]; rfl
  constructor
  · rintro ⟨hi, -⟩
    omega
  · rintro rfl
    exact ⟨by omega, by rw [lowLoaded_phdr]; rfl⟩

theorem lowServices_segments {a : SizeT} :
    a ∈ lowServices.segments lowMemory ↔ 0x100000 ≤ a.toNat ∧ a.toNat < 0x1000000 := by
  have hone : a ∈ lowServices.segments lowMemory ↔ a ∈ dest lowLoaded 0x30000 Elf64Phdr.pMemsz 0 :=
    ⟨fun ⟨i, hi, ha⟩ => lowLoaded_isLoad.1 hi ▸ ha, fun ha => ⟨0, lowLoaded_isLoad.2 rfl, ha⟩⟩
  rw [hone, dest, lowLoaded_phdr]
  exact mem_range_iff (by simp)

theorem lowServices_kernel : KernelFile lowLoaded 0x30000 138 0xe30000 0x100100 where
  headers := by
    refine ⟨range_mono (by simp), fun i hi => ?_⟩
    have hcount : phnum lowLoaded 0x30000 = 1 := by rw [phnum, lowLoaded_ehdr]; rfl
    obtain rfl : i = 0 := by omega
    rw [phdrAddr_zero, lowLoaded_ehdr]
    exact range_add_subset (k := 64) (by simp) (by simp)
  count := by
    rw [phnum, lowLoaded_ehdr]
    decide
  size i hi := by
    obtain rfl := lowLoaded_isLoad.1 hi
    rw [lowLoaded_phdr]
    decide
  data i hi := by
    obtain rfl := lowLoaded_isLoad.1 hi
    rw [lowLoaded_phdr]
    exact range_add_subset (k := 120) (by simp) (by simp)
  apart := by
    refine ⟨fun i hi => ?_, fun i j hi hj hij => ?_⟩
    · obtain rfl := lowLoaded_isLoad.1 hi
      rw [dest, lowLoaded_phdr]
      exact disjoint_range_of_le (by simp) (by simp) (by simp)
    · exact absurd ((lowLoaded_isLoad.1 hi).trans (lowLoaded_isLoad.1 hj).symm) hij
  entry := by
    refine ⟨0, 0, lowLoaded_isLoad.2 rfl, ?_, ?_, ?_⟩ <;> rw [lowLoaded_phdr]
    · decide
    · rw [lowLoaded_ehdr]
      rfl
    rw [lowLoaded_ehdr]
    have hfile : BytesAt lowLoaded 0x30000 lowKernelFile :=
      bytesAt_writeBytes _ _ (length_lowKernelFile.le.trans (by simp))
    exact hfile.append.2
  near := by
    rw [lowLoaded_ehdr]
    decide

theorem lowServices_font : lowServices.bytes .font = squareFontFile := by
  simp only [EfiServices.bytes, lowServices]

theorem lowServices_place_font : lowServices.place .font = range 0x10000 (256 * 16) := by
  rw [EfiServices.place, lowServices_font, length_squareFontFile]
  rfl

theorem lowServices_place_bmp : lowServices.place .bmp = range 0x7c000 58 := rfl

theorem lowServices_place_kernel : lowServices.place .kernel = range 0x30000 138 :=
  congrArg (range 0x30000) length_lowKernelFile

/-- The buffers of the loader are below the kernel. -/
theorem lowServices_low {base : SizeT} {n : ℕ} (h : base.toNat + n ≤ 0x100000) :
    Disjoint (range base n) (lowServices.segments lowMemory) := by
  refine Set.disjoint_left.2 fun a ha hseg => ?_
  have hlt := ((mem_range_iff (h.trans (by simp))).1 ha).2
  have hlo := (lowServices_segments.1 hseg).1
  omega

theorem lowServices_files : lowServices.FilesApart lowMemory where
  font_bmp := by
    rw [lowServices_place_font, lowServices_place_bmp]
    exact disjoint_range_of_le (by simp) (by simp) (by simp)
  font_kernel := by
    rw [lowServices_place_font, lowServices_place_kernel]
    exact disjoint_range_of_le (by simp) (by simp) (by simp)
  bmp_kernel := by
    rw [lowServices_place_bmp, lowServices_place_kernel]
    exact disjoint_range_of_le (by simp) (by simp) (by simp)
  segments := by
    rw [lowServices_place_font, lowServices_place_bmp]
    exact (Set.disjoint_union_left.2 ⟨lowServices_low (by simp), lowServices_low (by simp)⟩).symm
  font_le := by
    rw [lowServices_font, length_squareFontFile]
    simp
  bmp_le := by
    show onePixelFile.length ≤ 2 ^ 64
    exact Nat.le_of_ble_eq_true rfl

theorem lowServices_start : ∃ start, uefiMain grantAll lowServices 0 [] () lowMemory = some start := by
  obtain ⟨ret, st, hload⟩ := loadKernel_returns (m := lowLoaded) () fun _ _ _ _ => allocate_grantAll _ _ _
  refine ⟨_, uefiMain_eq_some.2 ⟨fun call htested => ?_, (ret, st), hload, rfl⟩⟩
  cases call with
  | openFile file =>
    cases file with
    | font => rfl
    | bmp => rfl
    | kernel => rfl
  | getInfo file =>
    cases file with
    | font => rfl
    | bmp => rfl
    | kernel => rfl
  | read file =>
    obtain rfl : file = .kernel := of_decide_eq_true htested
    rfl
  | allocatePool file => cases htested
  | _ => rfl

theorem lowLinked : Linked lowKernelImage lowServices lowMemory 0xe30000 where
  image _ ha := lowServices_segments.2 (lowImage_bytes.1 ha)
  stack _ ha := ⟨(0xe30000, 0x100000), by simp [lowKernelImage, lowObjects, lowOwn], ha⟩

/-- The loader jumps from `0x7000`, with the memory map in its buffer. -/
def lowJump (start : KernelStart) : State where
  rip := 0x7000
  reg r := if r = .rsi then start.kernelAddr else 0
  sys := staleMachine.sys
  mem := writeBytes (writeBytes start.mem 0x7e000 lowMapBytes) 0x7000 [0xff, 0xe6]

/-- What the jump and the memory map are made of. -/
def lowWork : Set SizeT := range 0x7000 2 ∪ range 0x7e000 48

theorem length_lowMapBytes : lowMapBytes.length = 48 := by simp [lowMapBytes]

theorem lowWork_apart {base : SizeT} {n : ℕ} (h : 0x7e030 ≤ base.toNat ∨ 0x7002 ≤ base.toNat ∧ base.toNat + n ≤ 0x7e000)
    (hn : base.toNat + n ≤ 2 ^ 64) : Disjoint lowWork (range base n) := by
  refine Set.disjoint_union_left.2 ⟨?_, ?_⟩
  · refine disjoint_range_of_le (by simp) hn (Or.inl ?_)
    simp only [BitVec.reduceToNat]
    omega
  · refine disjoint_range_of_le (by simp) hn ?_
    simp only [BitVec.reduceToNat]
    omega

theorem lowWork_segments : Disjoint lowWork (lowServices.segments lowMemory) :=
  Set.disjoint_union_left.2 ⟨lowServices_low (by simp), lowServices_low (by simp)⟩

theorem lowJump_handover {start : KernelStart} (hmap : start.bootinfo.mmap.buffer = lowMapBytes)
    (hsize : start.bootinfo.mmap.mapSize = 48) (hentries : start.bootinfo.mmap.descriptorSize = 48) :
    Handover lowServices lowMemory start 0x7e000 lowWork (lowJump start) where
  jump := bytesAt_writeBytes _ _ (by simp)
  entry := rfl
  mem a ha := by
    rw [Set.mem_compl_iff, lowWork, Set.mem_union, not_or] at ha
    have hmapOut : a ∈ (range (0x7e000 : SizeT) lowMapBytes.length)ᶜ := by
      rw [length_lowMapBytes]
      exact ha.2
    exact (eqOn_writeBytes _ 0x7000 _ ha.1).trans (eqOn_writeBytes _ 0x7e000 _ hmapOut)
  work_files := by
    rw [lowServices_place_font, lowServices_place_bmp]
    exact Set.disjoint_union_right.2 ⟨lowWork_apart (by simp) (by simp), lowWork_apart (by simp) (by simp)⟩
  work_segments := lowWork_segments
  map := by
    rw [hmap]
    refine (bytesAt_writeBytes start.mem 0x7e000 ?_).congr ?_ ?_
    · rw [length_lowMapBytes]
      simp
    · rw [length_lowMapBytes]
      simp
    · rw [length_lowMapBytes]
      refine frame_apart (eqOn_writeBytes _ 0x7000 [0xff, 0xe6]) ?_
      exact disjoint_range_of_le (by simp) (by simp) (by simp)
  map_work := by
    rw [hmap, length_lowMapBytes]
    exact Set.subset_union_right
  map_le := by
    rw [hmap, length_lowMapBytes]
    simp
  map_size := by
    rw [hmap, hsize, length_lowMapBytes]
    simp
  map_entries := by
    rw [hentries]
    simp

theorem lowHandedMap_desc :
    (MemoryMap.load (writeBytes (fun _ => 0) 0x7e000 lowMapBytes) 0x7e000 48 48).desc 0 = ⟨7, 0x1000000, 0x10000⟩ := by
  decide

theorem lowHandedMap_valid (loaded : SizeT × LoadState Unit) :
    ((lowServices.kernelStart [] loaded).bootinfo.handedMap 0x7e000).Valid 1 := by
  have hmap : (lowServices.kernelStart [] loaded).bootinfo.handedMap 0x7e000 =
      .load (writeBytes (fun _ => 0) 0x7e000 lowMapBytes) 0x7e000 48 48 := rfl
  rw [hmap]
  refine ⟨by decide, rfl, fun k hk => ?_, fun i hi j hj hij => absurd hij (by omega)⟩
  obtain rfl : k = 0 := Nat.lt_one_iff.1 hk
  rw [lowHandedMap_desc]
  exact ⟨by decide, by decide⟩

end MosaOS
