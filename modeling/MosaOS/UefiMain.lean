import MosaOS.LoadKernel
import MosaOS.ScreenManager

/-!
# The boot loader's `UefiMain` (`boot/MosaLoader.c`)

`UefiMain` makes seventeen calls to the firmware, tests some of the statuses and stops where one of
these is an error. `uefiMain_eq_some` says what it needs to reach the kernel, and `uefiMain_stops_iff`
when a call that is an error keeps it from there.
-/

namespace MosaOS

inductive EfiFile
  | font
  | bmp
  | kernel
deriving DecidableEq, Repr

def EfiFile.name : EfiFile → String
  | font => "font.bin"
  | bmp => "mosa.bmp"
  | kernel => "kernel.elf"

inductive EfiCall
  | locateGop
  | locateSfsp
  | openVolume
  | openFile (file : EfiFile)
  | getInfo (file : EfiFile)
  | allocatePool (file : EfiFile)
  | read (file : EfiFile)
  | getMemoryMap
  | exitBootServices
deriving DecidableEq, Repr

/-- `MemoryMap_t`, with the contents of its buffer. -/
structure LoaderMemoryMap where
  bufferSize : SizeT
  buffer : List (BitVec 8)
  mapSize : SizeT
  mapKey : SizeT
  descriptorSize : SizeT
  descriptorVersion : BitVec 32

structure BootInfo where
  vinfo : VideoInfo
  font : SizeT
  mmap : LoaderMemoryMap
  bmp : SizeT

/-- The arguments of `jump_to_kernel`, and the memory at that time. -/
structure KernelStart where
  bootinfo : BootInfo
  kernelAddr : SizeT
  mem : Memory

/-- The answers of the firmware: the status of a call and what it leaves in the variable for its result,
`none` where it leaves a variable alone that was `NULL` before. No call is made twice, so each answer
depends on the arguments of its own call only. -/
structure EfiServices where
  locateGop : SizeT × Option SizeT
  /-- `gop->Mode`. -/
  mode : SizeT → VideoInfo
  locateSfsp : SizeT × Option SizeT
  openVolume : SizeT → SizeT × Option SizeT
  openFile : SizeT → String → BitVec 64 → SizeT × SizeT
  /-- Of the information on a file, its size. -/
  getInfo : EfiFile → SizeT → SizeT → SizeT × SizeT
  allocatePool : EfiFile → SizeT → SizeT × Option SizeT
  /-- The bytes that are written to the buffer. -/
  read : EfiFile → SizeT → SizeT → SizeT → SizeT × List (BitVec 8)
  getMemoryMap : LoaderMemoryMap → SizeT × LoaderMemoryMap
  exitBootServices : SizeT → SizeT → SizeT

def EFI_FILE_READ_ONLY : BitVec 64 := 1
def BUF_256B : SizeT := 256

/-- `mmap` before `GetMemoryMap`, with what is in `memmap_buf`. -/
def initialMap (memmapBuf : List (BitVec 8)) : LoaderMemoryMap := ⟨4096 * 4, memmapBuf, 0, 0, 0, 0⟩

/-- `if(EFI_ERROR(status)) stop();` -/
def stopOnError (status : SizeT) : Option Unit := if efiError status then none else some ()

/-- The steps from `Open` to `Read` for one file. The status of `AllocatePool` is overwritten by that of
`Read`, which is tested for the kernel only. -/
def readFile (bs : EfiServices) (root : SizeT) (file : EfiFile) (m : Memory) :
    Option (SizeT × Memory) := do
  let (status, handle) := bs.openFile root file.name EFI_FILE_READ_ONLY
  stopOnError status
  let (status, fileSize) := bs.getInfo file handle BUF_256B
  stopOnError status
  let (_, buf) := bs.allocatePool file fileSize
  let buf := buf.getD 0
  let (status, bytes) := bs.read file handle fileSize buf
  (if file = .kernel then stopOnError status else some ())
  some (buf, writeBytes m buf bytes)

variable {σ : Type}

/-- `none` where `UefiMain` stops. `OpenVolume` is not tested: where it leaves `root` alone, `Open` is called
through a null pointer, and what this call does is taken to be the answer `openFile 0`. -/
def uefiMain (fw : Firmware σ) (bs : EfiServices) (imageHandle : SizeT) (memmapBuf : List (BitVec 8))
    (s : σ) (m : Memory) : Option KernelStart := do
  let (status, gop) := bs.locateGop
  stopOnError status
  let vinfo := bs.mode (gop.getD 0)
  let (status, sfsp) := bs.locateSfsp
  stopOnError status
  let (_, root) := bs.openVolume (sfsp.getD 0)
  stopOnError status -- `status` is the one of `LocateProtocol` still
  let root := root.getD 0
  let (font, m) ← readFile bs root .font m
  let (bmp, m) ← readFile bs root .bmp m
  let (kernelProgram, m) ← readFile bs root .kernel m
  let (updatedStartAddr, st) ← loadKernel fw s m kernelProgram
  let (_, mmap) := bs.getMemoryMap (initialMap memmapBuf)
  let mmap := { mmap with mapSize := mmap.bufferSize }
  let status := bs.exitBootServices imageHandle mmap.mapKey
  stopOnError status
  some ⟨⟨vinfo, font, mmap, bmp⟩, updatedStartAddr, st.mem⟩

/-! ### The calls of a boot -/

namespace EfiServices
variable (bs : EfiServices)

def root : SizeT := (bs.openVolume (bs.locateSfsp.2.getD 0)).2.getD 0
def handle (file : EfiFile) : SizeT := (bs.openFile bs.root file.name EFI_FILE_READ_ONLY).2
def fileSize (file : EfiFile) : SizeT := (bs.getInfo file (bs.handle file) BUF_256B).2
def buffer (file : EfiFile) : SizeT := (bs.allocatePool file (bs.fileSize file)).2.getD 0

def bytes (file : EfiFile) : List (BitVec 8) :=
  (bs.read file (bs.handle file) (bs.fileSize file) (bs.buffer file)).2

/-- The memory with a file in its buffer. -/
def withFile (file : EfiFile) (m : Memory) : Memory := writeBytes m (bs.buffer file) (bs.bytes file)

/-- The memory that `LoadKernel` finds. -/
def memory (m : Memory) : Memory := bs.withFile .kernel (bs.withFile .bmp (bs.withFile .font m))

/-- What `jump_to_kernel` is given when `LoadKernel` has returned. -/
def kernelStart (memmapBuf : List (BitVec 8)) (loaded : SizeT × LoadState σ) : KernelStart where
  bootinfo :=
    { vinfo := bs.mode (bs.locateGop.2.getD 0)
      font := bs.buffer .font
      mmap := { (bs.getMemoryMap (initialMap memmapBuf)).2 with
        mapSize := (bs.getMemoryMap (initialMap memmapBuf)).2.bufferSize }
      bmp := bs.buffer .bmp }
  kernelAddr := loaded.1
  mem := loaded.2.mem

/-- What a call answers to the arguments that `UefiMain` gives it. -/
def status (imageHandle : SizeT) (memmapBuf : List (BitVec 8)) : EfiCall → SizeT
  | .locateGop => bs.locateGop.1
  | .locateSfsp => bs.locateSfsp.1
  | .openVolume => (bs.openVolume (bs.locateSfsp.2.getD 0)).1
  | .openFile file => (bs.openFile bs.root file.name EFI_FILE_READ_ONLY).1
  | .getInfo file => (bs.getInfo file (bs.handle file) BUF_256B).1
  | .allocatePool file => (bs.allocatePool file (bs.fileSize file)).1
  | .read file => (bs.read file (bs.handle file) (bs.fileSize file) (bs.buffer file)).1
  | .getMemoryMap => (bs.getMemoryMap (initialMap memmapBuf)).1
  | .exitBootServices =>
    bs.exitBootServices imageHandle (bs.getMemoryMap (initialMap memmapBuf)).2.mapKey

end EfiServices

/-- The calls whose status `UefiMain` tests. -/
def EfiCall.tested : EfiCall → Bool
  | openVolume => false
  | allocatePool _ => false
  | read file => file = .kernel
  | getMemoryMap => false
  | _ => true

variable {fw : Firmware σ} {bs : EfiServices} {imageHandle : SizeT} {memmapBuf : List (BitVec 8)} {s : σ}
  {m : Memory} {file : EfiFile}

theorem stopOnError_bind {α : Type} {status : SizeT} {f : Unit → Option α} {r : α} :
    (stopOnError status).bind f = some r ↔ efiError status = false ∧ f () = some r := by
  unfold stopOnError
  cases efiError status with
  | false => simp
  | true => simp

/-- A file is read where the tested calls for it are no errors. -/
theorem readFile_bind {α : Type} (imageHandle : SizeT) (memmapBuf : List (BitVec 8))
    {f : SizeT × Memory → Option α} {r : α} : (readFile bs bs.root file m).bind f = some r ↔
      efiError (bs.status imageHandle memmapBuf (.openFile file)) = false ∧
      efiError (bs.status imageHandle memmapBuf (.getInfo file)) = false ∧
      (file = .kernel → efiError (bs.status imageHandle memmapBuf (.read file)) = false) ∧
      f (bs.buffer file, bs.withFile file m) = some r := by
  have hread : (readFile bs bs.root file m).bind f =
      ((stopOnError (bs.status imageHandle memmapBuf (.openFile file))).bind fun _ =>
        (stopOnError (bs.status imageHandle memmapBuf (.getInfo file))).bind fun _ =>
          (if file = .kernel then stopOnError (bs.status imageHandle memmapBuf (.read file))
            else some ()).bind fun _ => some (bs.buffer file, bs.withFile file m)).bind f := rfl
  rw [hread, Option.bind_assoc, stopOnError_bind, Option.bind_assoc, stopOnError_bind, Option.bind_assoc]
  by_cases hkernel : file = .kernel
  · rw [if_pos hkernel, stopOnError_bind, Option.bind_some]
    simp only [hkernel, true_imp_iff]
  · rw [if_neg hkernel, Option.bind_some, Option.bind_some]
    simp only [hkernel, false_imp_iff, true_and]

/-- The kernel is entered exactly when no tested call is an error and `LoadKernel` returns. -/
theorem uefiMain_eq_some {start : KernelStart} :
    uefiMain fw bs imageHandle memmapBuf s m = some start ↔
      (∀ call : EfiCall, call.tested = true →
        efiError (bs.status imageHandle memmapBuf call) = false) ∧
      ∃ loaded, loadKernel fw s (bs.memory m) (bs.buffer .kernel) = some loaded ∧
        bs.kernelStart memmapBuf loaded = start := by
  have hmain : uefiMain fw bs imageHandle memmapBuf s m =
      (stopOnError (bs.status imageHandle memmapBuf .locateGop)).bind fun _ =>
        (stopOnError (bs.status imageHandle memmapBuf .locateSfsp)).bind fun _ =>
          (stopOnError (bs.status imageHandle memmapBuf .locateSfsp)).bind fun _ =>
            (readFile bs bs.root .font m).bind fun font =>
              (readFile bs bs.root .bmp font.2).bind fun bmp =>
                (readFile bs bs.root .kernel bmp.2).bind fun kernel =>
                  (loadKernel fw s kernel.2 kernel.1).bind fun loaded =>
                    (stopOnError (bs.status imageHandle memmapBuf .exitBootServices)).bind fun _ =>
                      some ⟨⟨bs.mode (bs.locateGop.2.getD 0), font.1,
                        { (bs.getMemoryMap (initialMap memmapBuf)).2 with
                          mapSize := (bs.getMemoryMap (initialMap memmapBuf)).2.bufferSize },
                        bmp.1⟩, loaded.1, loaded.2.mem⟩ := rfl
  rw [hmain, stopOnError_bind, stopOnError_bind, stopOnError_bind, readFile_bind imageHandle memmapBuf,
    readFile_bind imageHandle memmapBuf, readFile_bind imageHandle memmapBuf, Option.bind_eq_some_iff]
  constructor
  · rintro ⟨hgop, hsfsp, -, hfontOpen, hfontInfo, -, hbmpOpen, hbmpInfo, -, hkernelOpen, hkernelInfo,
      hkernelRead, loaded, hloaded, h⟩
    obtain ⟨hexit, hstart⟩ := stopOnError_bind.1 h
    refine ⟨fun call htested => ?_, loaded, hloaded, Option.some.inj hstart⟩
    cases call with
    | locateGop => exact hgop
    | locateSfsp => exact hsfsp
    | openVolume => cases htested
    | openFile file =>
      cases file with
      | font => exact hfontOpen
      | bmp => exact hbmpOpen
      | kernel => exact hkernelOpen
    | getInfo file =>
      cases file with
      | font => exact hfontInfo
      | bmp => exact hbmpInfo
      | kernel => exact hkernelInfo
    | allocatePool file => cases htested
    | read file =>
      obtain rfl : file = .kernel := of_decide_eq_true htested
      exact hkernelRead rfl
    | getMemoryMap => cases htested
    | exitBootServices => exact hexit
  · rintro ⟨hok, loaded, hloaded, rfl⟩
    have hread : ∀ file : EfiFile, file = .kernel →
        efiError (bs.status imageHandle memmapBuf (.read file)) = false :=
      fun file hkernel => hok _ (decide_eq_true hkernel)
    exact ⟨hok _ rfl, hok _ rfl, hok _ rfl, hok _ rfl, hok _ rfl, hread _, hok _ rfl, hok _ rfl, hread _,
      hok _ rfl, hok _ rfl, hread _, loaded, hloaded, stopOnError_bind.2 ⟨hok _ rfl, rfl⟩⟩

/-- A call that is an error keeps the kernel from being entered exactly when one of the tested calls is
an error, or `LoadKernel` halts, or none of the untested calls is an error. -/
theorem uefiMain_stops_iff (fw : Firmware σ) (bs : EfiServices) (imageHandle : SizeT)
    (memmapBuf : List (BitVec 8)) (s : σ) (m : Memory) :
    ((∃ call, efiError (bs.status imageHandle memmapBuf call) = true) →
        uefiMain fw bs imageHandle memmapBuf s m = none) ↔
      (∃ call : EfiCall, call.tested = true ∧ efiError (bs.status imageHandle memmapBuf call) = true) ∨
      loadKernel fw s (bs.memory m) (bs.buffer .kernel) = none ∨
      ∀ call : EfiCall, call.tested = false → efiError (bs.status imageHandle memmapBuf call) = false := by
  constructor
  · intro hstops
    by_contra hnot
    simp only [not_or, not_exists, not_and, not_forall, Bool.not_eq_true, Bool.not_eq_false] at hnot
    obtain ⟨hok, hloads, call, -, herror⟩ := hnot
    obtain ⟨loaded, hloaded⟩ := Option.ne_none_iff_exists'.1 hloads
    have hstart := uefiMain_eq_some.2 ⟨hok, loaded, hloaded, rfl⟩
    rw [hstops ⟨call, herror⟩] at hstart
    cases hstart
  · rintro hcond ⟨call, herror⟩
    by_contra hstart
    obtain ⟨start, hstart⟩ := Option.ne_none_iff_exists'.1 hstart
    obtain ⟨hok, loaded, hloaded, -⟩ := uefiMain_eq_some.1 hstart
    rcases hcond with ⟨call', htested, herror'⟩ | hhalts | huntested
    · rw [hok call' htested] at herror'
      cases herror'
    · rw [hhalts] at hloaded
      cases hloaded
    · cases htested : call.tested with
      | true => exact Bool.false_ne_true ((hok call htested).symm.trans herror)
      | false => exact Bool.false_ne_true ((huntested call htested).symm.trans herror)

/-! ### A font that cannot be read -/

/-- Every call succeeds but the one that reads the font, which is a device error. The kernel is an image
without segments. -/
def fontFails : EfiServices where
  locateGop := (0, some 0x1000)
  mode := fun _ => ⟨0x80000000, 1920000, 800, 600, 800⟩
  locateSfsp := (0, some 0x2000)
  openVolume := fun _ => (0, some 0x3000)
  openFile := fun _ _ _ => (0, 0x4000)
  getInfo := fun _ _ _ => (0, 64)
  allocatePool := fun file _ =>
    match file with
    | .font => (0, some 0x10000)
    | .bmp => (0, some 0x20000)
    | .kernel => (0, some 0x30000)
  read := fun file _ _ _ => if file = .font then (0x8000000000000007, []) else (0, List.replicate 64 0)
  getMemoryMap := fun mmap =>
    (0, { mmap with bufferSize := 48, mapKey := 1, descriptorSize := 48, descriptorVersion := 1 })
  exitBootServices := fun _ _ => 0

theorem uefiMain_without_font :
    efiError (fontFails.status 0 [] (.read .font)) = true ∧
      ∃ start, uefiMain (⟨fun _ _ _ => (0, ())⟩ : Firmware Unit) fontFails 0 [] () (fun _ => 0) =
        some start := by
  refine ⟨by decide, _, uefiMain_eq_some.2 ⟨fun call htested => ?_, _, rfl, rfl⟩⟩
  cases call with
  | read file =>
    obtain rfl : file = .kernel := of_decide_eq_true htested
    rfl
  | openFile file => cases file <;> rfl
  | getInfo file => cases file <;> rfl
  | allocatePool file => cases htested
  | _ => rfl

end MosaOS
