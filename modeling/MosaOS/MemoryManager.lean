import MosaOS.Lib.Words

/-!
# The bitmap memory manager (`kernel/memory_manager.hpp`, `kernel/memory_manager.cpp`)

One bit of `allocMap` for each 4 KiB frame of physical memory, set when the frame is taken. `size_t`
is 64 bits wide on the target. A read or a store past `allocMap` is `none`: the source does not check
the index, so nothing is known of the program after one.
-/

namespace MosaOS

/-- `size_t`, `uintptr_t` and the other 64-bit words of the target. -/
abbrev SizeT := BitVec 64

/-! ### `kernel/error.hpp` -/

inductive Error.Code where
  | kSuccess | kFull | kEmpty | kNoEnoughMemory | kindexOutOfRange | kHostControllerNotHalted
  | kinvalidSlotID | kPortNotConnected | kInvalidEndpointNumber | kTransferringNotSet
  | kAlreadyAllocated | kNotImplemented | kInvalidDescriptor | kBufferTooSmall | kUnknownDevice
  | kNoCorrespondingSetupStage | kTransferFailed | kInvalidPhase | kUnknownXHCISpeedID | kNoWaiter
  | kLastOfCode
deriving DecidableEq, Repr

structure Error where
  code : Error.Code
  file : String
  line : ℕ
deriving DecidableEq, Repr

/-- `operator bool`. -/
def Error.toBool (e : Error) : Bool := e.code != .kSuccess

/-- `code_names_`. -/
def Error.codeNames : List String :=
  ["kSuccess", "kFull", "kEmpty", "kNoEnoughMemory", "kindexOutOfRange", "kHostControllerNotHalted",
    "kinvalidSlotID", "kPortNotConnected", "kInvalidEndpointNumber", "kTransferringNotSet",
    "kAlreadyAllocated", "kNotImplemented", "kInvalidDescriptor", "kBufferTooSmall", "kUnknownDevice",
    "kNoCorrespondingSetupStage", "kTransferFailed", "kInvalidPhase", "kUnknownXHCISpeedID", "kNoWaiter",
    "kLastOfCode"]

/-- The last code is the last entry of the table. -/
def Error.name (e : Error) : String := codeNames.getD e.code.ctorIdx ""

/-- `MAKE_ERROR(code)` at line `line` of `memory_manager.cpp`. -/
def makeError (code : Error.Code) (line : ℕ) : Error := ⟨code, "memory_manager.cpp", line⟩

structure WithError (α : Type) where
  value : α
  error : Error
deriving DecidableEq, Repr

/-! ### Frames and the bitmap -/

def kBytesPerFrame : SizeT := 4 * 1024

def kMaxPhysicalMemoryBytes : ℕ := 128 * (1024 * (1024 * 1024))

def kFrameCount : ℕ := kMaxPhysicalMemoryBytes / (4 * 1024)

def kBitsPerMapLine : SizeT := 8 * 8

/-- The number of words of `alloc_map_`, `kFrameCount / kBitsPerMapLine`. -/
def kMapLines : ℕ := kFrameCount / 64

structure FrameID where
  id : SizeT
deriving DecidableEq, Repr

/-- `FrameID::Frame`. -/
def FrameID.frame (f : FrameID) : SizeT := f.id * kBytesPerFrame

def kNullFrame : FrameID := ⟨BitVec.allOnes 64⟩

structure BitmapMemoryManager where
  allocMap : WordArray kMapLines 64
  rangeBegin : FrameID
  rangeEnd : FrameID

namespace BitmapMemoryManager

/-- The constructor: it sets the range and leaves `alloc_map_` with what the memory held. -/
def construct (allocMap : WordArray kMapLines 64) : BitmapMemoryManager :=
  ⟨allocMap, kNullFrame, kNullFrame⟩

def getBit (mm : BitmapMemoryManager) (frame : FrameID) : Option Bool :=
  let lineIndex := (frame.id / kBitsPerMapLine).toNat
  let bitIndex := (frame.id % kBitsPerMapLine).toNat
  if h : lineIndex < kMapLines then
    some ((mm.allocMap ⟨lineIndex, h⟩ &&& (1#64 <<< bitIndex)) != 0#64)
  else none

def setBit (mm : BitmapMemoryManager) (frame : FrameID) (allocated : Bool) :
    Option BitmapMemoryManager :=
  let lineIndex := (frame.id / kBitsPerMapLine).toNat
  let bitIndex := (frame.id % kBitsPerMapLine).toNat
  if h : lineIndex < kMapLines then
    let line := mm.allocMap ⟨lineIndex, h⟩
    let line' := if allocated then line ||| (1#64 <<< bitIndex) else line &&& ~~~(1#64 <<< bitIndex)
    some { mm with allocMap := Function.update mm.allocMap ⟨lineIndex, h⟩ line' }
  else none

/-- The loop `for (i = 0; i < num_frames; i++) SetBit(FrameID{start_frame.ID() + i}, true)`. -/
def markAllocated (mm : BitmapMemoryManager) (startFrame : FrameID) (numFrames : SizeT) :
    Option BitmapMemoryManager :=
  (List.range numFrames.toNat).foldlM
    (fun mm i => mm.setBit ⟨startFrame.id + BitVec.ofNat 64 i⟩ true) mm

def setMemoryRange (mm : BitmapMemoryManager) (rangeBegin rangeEnd : FrameID) :
    BitmapMemoryManager :=
  { mm with rangeBegin := rangeBegin, rangeEnd := rangeEnd }

/-! ### `Allocate` -/

/-- How the inner loop of `Allocate` is left: past the range, or with the counter at `i`. -/
inductive Scan where
  | outOfRange
  | stopped (i : SizeT)
deriving DecidableEq, Repr

/-- The inner loop of `Allocate`, from the counter `i` on. -/
def scan (getBit : FrameID → Option Bool) (rangeEnd startFrameID numFrames i : SizeT) :
    Option Scan :=
  if i < numFrames then
    if rangeEnd ≤ startFrameID + i then some .outOfRange
    else
      match getBit ⟨startFrameID + i⟩ with
      | none => none
      | some true => some (.stopped i)
      | some false => scan getBit rangeEnd startFrameID numFrames (i + 1)
  else some (.stopped i)
termination_by numFrames.toNat - i.toNat
decreasing_by bv_omega

/-- What the inner loop has seen when it ends: it read frames below `rangeEnd` only, one after the
other and without wrapping, and stopped at the first used one. -/
inductive ScanSpec (getBit : FrameID → Option Bool) (rangeEnd start num i₀ : ℕ) : Scan → Prop
  | outOfRange (i : ℕ) (hi : i < num) (he : rangeEnd ≤ start + i) :
    ScanSpec getBit rangeEnd start num i₀ .outOfRange
  | used (i : SizeT) (hi : i.toNat < num) (he : start + i.toNat < rangeEnd)
    (hfree : ∀ j, i₀ ≤ j → j < i.toNat → getBit ⟨BitVec.ofNat 64 (start + j)⟩ = some false)
    (hused : getBit ⟨BitVec.ofNat 64 (start + i.toNat)⟩ = some true) :
    ScanSpec getBit rangeEnd start num i₀ (.stopped i)
  | fits (i : SizeT) (hi : i.toNat = num) (he : i₀ < num → start + num ≤ rangeEnd)
    (hfree : ∀ j, i₀ ≤ j → j < num → getBit ⟨BitVec.ofNat 64 (start + j)⟩ = some false) :
    ScanSpec getBit rangeEnd start num i₀ (.stopped i)

theorem ofNat_add_toNat (a b : SizeT) : BitVec.ofNat 64 (a.toNat + b.toNat) = a + b :=
  BitVec.eq_of_toNat_eq (by simp)

theorem scan_spec {getBit : FrameID → Option Bool} {rangeEnd start num i₀ : SizeT} {r : Scan}
    (h : scan getBit rangeEnd start num i₀ = some r) (hi₀ : i₀ ≤ num)
    (hwrap : start.toNat + i₀.toNat < 2 ^ 64) :
    ScanSpec getBit rangeEnd.toNat start.toNat num.toNat i₀.toNat r := by
  fun_induction scan getBit rangeEnd start num i₀ with
  | case1 i hlt hend =>
    cases h
    exact .outOfRange i.toNat (by bv_omega) (by bv_omega)
  | case2 i hlt hend hbit => cases h
  | case3 i hlt hend hbit =>
    cases h
    have hadd := ofNat_add_toNat start i
    exact .used i (by bv_omega) (by bv_omega) (fun j h1 h2 => by omega) (by rw [hadd, hbit])
  | case4 i hlt hend hbit ih =>
    have hadd := ofNat_add_toNat start i
    have hsucc : (i + 1).toNat = i.toNat + 1 := by bv_omega
    have hfirst : ∀ j, i.toNat ≤ j → ¬ (i + 1).toNat ≤ j →
        getBit ⟨BitVec.ofNat 64 (start.toNat + j)⟩ = some false := fun j h1 h2 => by
      obtain rfl : j = i.toNat := by omega
      rw [hadd, hbit]
    cases ih h (by bv_omega) (by bv_omega) with
    | outOfRange k hk he => exact .outOfRange k hk he
    | used k hk he hfree hused =>
      refine .used k hk he (fun j h1 h2 => ?_) hused
      by_cases hj : (i + 1).toNat ≤ j
      · exact hfree j hj h2
      · exact hfirst j h1 hj
    | fits k hk he hfree =>
      refine .fits k hk (fun _ => ?_) (fun j h1 h2 => ?_)
      · by_cases hj : (i + 1).toNat < num.toNat
        · exact he hj
        · bv_omega
      · by_cases hj : (i + 1).toNat ≤ j
        · exact hfree j hj h2
        · exact hfirst j h1 hj
  | case5 i hge =>
    cases h
    exact .fits i (by bv_omega) (fun _ => by bv_omega) (fun j h1 h2 => by bv_omega)

/-- A scan that stops short of `numFrames` stops inside the range, so the jump past the used frame
moves on without wrapping. -/
theorem scan_jump {getBit : FrameID → Option Bool} {rangeEnd start num i : SizeT}
    (h : scan getBit rangeEnd start num 0 = some (.stopped i)) (hi : i ≠ num) :
    start.toNat + i.toNat < rangeEnd.toNat ∧ (start + (i + 1)).toNat = start.toNat + i.toNat + 1 := by
  have hs := scan_spec h (by bv_omega) (by bv_omega)
  cases hs with
  | used _ _ he => exact ⟨he, by bv_omega⟩
  | fits _ hk => exact absurd (BitVec.eq_of_toNat_eq hk) hi

/-- The outer loop of `Allocate`: the first frame of the block found, or `none` past the range. -/
def search (getBit : FrameID → Option Bool) (rangeEnd numFrames startFrameID : SizeT) :
    Option (Option SizeT) :=
  match h : scan getBit rangeEnd startFrameID numFrames 0 with
  | none => none
  | some .outOfRange => some none
  | some (.stopped i) =>
    if hi : i = numFrames then some (some startFrameID)
    else search getBit rangeEnd numFrames (startFrameID + (i + 1))
termination_by rangeEnd.toNat - startFrameID.toNat
decreasing_by
  have := scan_jump h hi
  omega

def allocate (mm : BitmapMemoryManager) (numFrames : SizeT) :
    Option (WithError FrameID × BitmapMemoryManager) :=
  match search mm.getBit mm.rangeEnd.id numFrames mm.rangeBegin.id with
  | none => none
  | some none => some (⟨kNullFrame, makeError .kNoEnoughMemory 46⟩, mm)
  | some (some startFrameID) =>
    (mm.markAllocated ⟨startFrameID⟩ numFrames).map fun mm =>
      (⟨⟨startFrameID⟩, makeError .kSuccess 56⟩, mm)

/-- `Free` sets the bits of the block: the value its loop passes to `SetBit` is `true`. -/
def free (mm : BitmapMemoryManager) (startFrame : FrameID) (numFrames : SizeT) :
    Option (Error × BitmapMemoryManager) :=
  ((List.range numFrames.toNat).foldlM (fun (mm : BitmapMemoryManager) i =>
    mm.setBit ⟨startFrame.id + BitVec.ofNat 64 i⟩ true) mm).map fun mm =>
      (makeError .kSuccess 68, mm)

end BitmapMemoryManager

end MosaOS
