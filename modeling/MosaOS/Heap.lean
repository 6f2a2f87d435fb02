import MosaOS.AllocatorRuns
import MosaOS.Lib.Bump

/-!
# The heap (`kernel/memory_manager.cpp`, `kernel/newlib_support.c`)

`initializeHeap` takes the frames of the heap from the memory manager and sets the break pointers that
`sbrk` moves. A run is any interleaving of `sbrk` and `Allocate`; it keeps the list of its events.
`Reserved` is what every step keeps after a successful `InitializeHeap`, `Unset` after a failed one.
-/

namespace MosaOS
open FirstFit BitmapMemoryManager

def kHeapFrames : SizeT := 64 * 512

/-- `ENOMEM` of `errno.h`. -/
def ENOMEM : BitVec 32 := 12

/-- The memory manager and the globals of `newlib_support.c`. -/
structure Heap where
  mm : BitmapMemoryManager
  programBreak : SizeT
  programBreakEnd : SizeT
  errno : BitVec 32

def initializeHeap (h : Heap) : Option (Error × Heap) := do
  let (heapStart, mm) ← h.mm.allocate kHeapFrames
  if heapStart.error.toBool then
    some (heapStart.error, { h with mm := mm })
  else
    let programBreak := heapStart.value.id * kBytesPerFrame
    let programBreakEnd := programBreak + kHeapFrames * kBytesPerFrame
    some (makeError .kSuccess 82, ⟨mm, programBreak, programBreakEnd, h.errno⟩)

namespace Heap

def sbrk (h : Heap) (incr : BitVec 32) : SizeT × Heap :=
  if h.programBreak = 0 ∨ h.programBreak + incr.signExtend 64 ≥ h.programBreakEnd then
    (-1, { h with errno := ENOMEM })
  else (h.programBreak, { h with programBreak := h.programBreak + incr.signExtend 64 })

/-! ### Runs -/

inductive Call where
  | sbrk (incr : BitVec 32)
  | allocate (numFrames : SizeT)
deriving DecidableEq, Repr

/-- A call with what it returned; for `sbrk` also `program_break` before and after. -/
inductive Event where
  | sbrk (incr : BitVec 32) (ret prevBreak newBreak : SizeT)
  | allocate (numFrames : SizeT) (ret : WithError FrameID)
deriving DecidableEq, Repr

/-- The calls of a run: `incr >= 0` and `num_frames >= 1`. -/
def Call.allowed : Call → Bool
  | .sbrk incr => 0 ≤ incr.toInt
  | .allocate n => n != 0

def perform (h : Heap) : Call → Option (Event × Heap)
  | .sbrk incr =>
    let (ret, h') := h.sbrk incr
    some (.sbrk incr ret h.programBreak h'.programBreak, h')
  | .allocate n => (h.mm.allocate n).map fun (r, mm) => (.allocate n r, { h with mm := mm })

def step (h : Heap) (c : Call) : Option (Event × Heap) := if c.allowed then h.perform c else none

structure Trace where
  heap : Heap
  events : List Event

def Trace.step (t : Trace) (c : Call) : Option Trace :=
  (t.heap.step c).map fun (e, h) => ⟨h, t.events ++ [e]⟩

def run (h : Heap) (calls : List Call) : Option Trace := calls.foldlM Trace.step ⟨h, []⟩

/-- The bytes that one event granted: `sbrk` returns -1 when it refuses. -/
def Event.granted : Event → Option Block
  | .sbrk incr ret _ _ => if ret = -1 then none else some ⟨ret.toNat, incr.toNat⟩
  | .allocate _ _ => none

def granted (events : List Event) : List Block := events.filterMap Event.granted

theorem granted_snoc (events : List Event) (e : Event) :
    granted (events ++ [e]) = granted events ++ e.granted.toList := by
  rw [granted, List.filterMap_append]
  cases he : e.granted <;> simp [granted, he]

theorem still_snoc {events : List Event} {e : Event}
    (h : ∀ incr q q', Event.sbrk incr (-1) q q' ∈ events → q' = q)
    (he : ∀ incr q q', e = .sbrk incr (-1) q q' → q' = q) (incr : BitVec 32) (q q' : SizeT)
    (hmem : Event.sbrk incr (-1) q q' ∈ events ++ [e]) : q' = q := by
  rcases List.mem_append.1 hmem with hmem | hmem
  · exact h incr q q' hmem
  · exact he incr q q' (List.mem_singleton.1 hmem).symm

theorem apart_snoc {S : Set ℕ} {events : List Event} {e : Event}
    (h : ∀ n r, Event.allocate n r ∈ events → r.error.toBool = false →
      Disjoint (blockOf r.value n).places S)
    (he : ∀ n r, e = .allocate n r → r.error.toBool = false →
      Disjoint (blockOf r.value n).places S)
    (n : SizeT) (r : WithError FrameID) (hmem : Event.allocate n r ∈ events ++ [e])
    (hok : r.error.toBool = false) : Disjoint (blockOf r.value n).places S := by
  rcases List.mem_append.1 hmem with hmem | hmem
  · exact h n r hmem hok
  · exact he n r (List.mem_singleton.1 hmem).symm hok

variable {h h' : Heap} {c : Call} {e : Event}

inductive StepSpec (h : Heap) : Call → Event → Heap → Prop
  | refused (incr : BitVec 32) (hno : h.programBreak = 0 ∨
      h.programBreak + incr.signExtend 64 ≥ h.programBreakEnd) :
    StepSpec h (.sbrk incr) (.sbrk incr (-1) h.programBreak h.programBreak)
      { h with errno := ENOMEM }
  | moved (incr : BitVec 32) (hpos : 0 ≤ incr.toInt) (hset : h.programBreak ≠ 0)
      (hlt : h.programBreak + incr.signExtend 64 < h.programBreakEnd) :
    StepSpec h (.sbrk incr)
      (.sbrk incr h.programBreak h.programBreak (h.programBreak + incr.signExtend 64))
      { h with programBreak := h.programBreak + incr.signExtend 64 }
  | allocated (n : SizeT) (r : WithError FrameID) (mm : BitmapMemoryManager)
      (hspec : AllocateSpec h.mm n r mm) :
    StepSpec h (.allocate n) (.allocate n r) { h with mm := mm }

theorem step_cases (hr : h.mm.rangeEnd.id.toNat ≤ kFrameCount) (hs : h.step c = some (e, h')) :
    StepSpec h c e h' := by
  unfold step at hs
  split at hs
  · rename_i hc
    cases c with
    | sbrk incr =>
      have hpos : 0 ≤ incr.toInt := by simpa [Call.allowed] using hc
      simp only [perform, sbrk] at hs
      split at hs
      · rename_i hno
        cases hs
        exact .refused incr hno
      · rename_i hyes
        cases hs
        obtain ⟨hset, hlt⟩ := not_or.1 hyes
        exact .moved incr hpos hset (BitVec.not_le.1 hlt)
    | allocate n =>
      have hn : n ≠ 0 := by simpa [Call.allowed] using hc
      obtain ⟨r, mm, ha, hspec⟩ := allocate_spec hr hn
      simp only [perform, ha] at hs
      cases hs
      exact .allocated n r mm hspec
  · cases hs

theorem StepSpec.rangeEnd_eq (hs : StepSpec h c e h') : h'.mm.rangeEnd = h.mm.rangeEnd := by
  cases hs with
  | refused => rfl
  | moved => rfl
  | allocated n r mm hspec => exact hspec.rangeEnd_eq

theorem Trace.step_cases {t t' : Trace} (hr : t.heap.mm.rangeEnd.id.toNat ≤ kFrameCount)
    (hs : t.step c = some t') :
    ∃ e, StepSpec t.heap c e t'.heap ∧ t'.events = t.events ++ [e] := by
  obtain ⟨⟨e, h⟩, hstep, rfl⟩ := Option.map_eq_some_iff.1 hs
  exact ⟨e, Heap.step_cases hr hstep, rfl⟩

/-- Every interleaving of allowed calls runs to its end. -/
theorem run_total (hr : h.mm.rangeEnd.id.toNat ≤ kFrameCount) {calls : List Call}
    (hc : ∀ c ∈ calls, c.allowed = true) : ∃ t, h.run calls = some t := by
  have htotal : ∃ t : Trace, calls.foldlM Trace.step ⟨h, []⟩ = some t ∧
      t.heap.mm.rangeEnd.id.toNat ≤ kFrameCount := by
    refine Run.total (P := fun t : Trace => t.heap.mm.rangeEnd.id.toNat ≤ kFrameCount)
      (fun t c hmem ht => ?_) hr
    obtain ⟨e, h', hs⟩ : ∃ e h', t.heap.step c = some (e, h') := by
      rw [step, if_pos (hc c hmem)]
      cases c with
      | sbrk incr => exact ⟨_, _, rfl⟩
      | allocate n =>
        obtain ⟨r, mm, ha, -⟩ := allocate_spec ht (by simpa [Call.allowed] using hc _ hmem)
        exact ⟨_, _, by simp only [perform, ha]; rfl⟩
    refine ⟨⟨h', t.events ++ [e]⟩, by rw [Trace.step, hs]; rfl, ?_⟩
    show h'.mm.rangeEnd.id.toNat ≤ _
    rw [(Heap.step_cases ht hs).rangeEnd_eq]
    exact ht
  exact htotal.imp fun t ht => ht.1

/-! ### After a failed `InitializeHeap` -/

/-- The break was never set, and every `sbrk` so far returned -1. -/
structure Unset (t : Trace) : Prop where
  inRange : t.heap.mm.rangeEnd.id.toNat ≤ kFrameCount
  unset : t.heap.programBreak = 0
  refused : ∀ incr ret q q', Event.sbrk incr ret q q' ∈ t.events → ret = -1

theorem Unset.step {t t' : Trace} (ht : Unset t) (hs : t.step c = some t') : Unset t' := by
  obtain ⟨e, hspec, hevents⟩ := Trace.step_cases ht.inRange hs
  obtain ⟨h, events⟩ := t'
  obtain rfl : events = t.events ++ [e] := hevents
  cases hspec with
  | refused incr hno =>
    refine ⟨ht.inRange, ht.unset, fun incr' ret q q' he => ?_⟩
    rcases List.mem_append.1 he with he | he
    · exact ht.refused _ _ _ _ he
    · cases List.mem_singleton.1 he
      rfl
  | moved incr hpos hset hlt => exact absurd ht.unset hset
  | allocated n r mm hspec =>
    refine ⟨hspec.rangeEnd_eq ▸ ht.inRange, ht.unset, fun incr' ret q q' he => ?_⟩
    rcases List.mem_append.1 he with he | he
    · exact ht.refused _ _ _ _ he
    · cases List.mem_singleton.1 he

/-! ### After a successful one -/

theorem toNat_add_signExtend {q : SizeT} {incr : BitVec 32} (hq : q.toNat ≤ kFrameCount * 4096)
    (hpos : 0 ≤ incr.toInt) : (q + incr.signExtend 64).toNat = q.toNat + incr.toNat := by
  have hcount : kFrameCount = 2 ^ 25 := rfl
  have hmsb : incr.msb = false := by
    rw [BitVec.msb_eq_toInt]
    simpa using hpos
  rw [BitVec.signExtend_eq_setWidth_of_msb_false hmsb, BitVec.toNat_add, BitVec.toNat_setWidth]
  omega

/-- The heap owns the `kHeapFrames` frames from `p` on: they are taken in the bitmap, the granted bytes
fill the heap up to the break, and no block of the run meets the heap. -/
structure Reserved (p : ℕ) (t : Trace) : Prop where
  inRange : t.heap.mm.rangeEnd.id.toNat ≤ kFrameCount
  top : p + kHeapFrames.toNat ≤ kFrameCount
  taken : Set.Ico p (p + kHeapFrames.toNat) ⊆ t.heap.mm.used
  breakEnd : t.heap.programBreakEnd.toNat = (p + kHeapFrames.toNat) * 4096
  blocks : Bump.Consecutive (p * 4096) (granted t.events) t.heap.programBreak.toNat
  below : t.heap.programBreak.toNat < (p + kHeapFrames.toNat) * 4096
  still : ∀ incr q q', Event.sbrk incr (-1) q q' ∈ t.events → q' = q
  apart : ∀ n r, Event.allocate n r ∈ t.events → r.error.toBool = false →
    Disjoint (blockOf r.value n).places (Set.Ico p (p + kHeapFrames.toNat))

theorem Reserved.step {p : ℕ} {t t' : Trace} (ht : Reserved p t) (hs : t.step c = some t') :
    Reserved p t' := by
  obtain ⟨e, hspec, hevents⟩ := Trace.step_cases ht.inRange hs
  obtain ⟨h, events⟩ := t'
  obtain rfl : events = t.events ++ [e] := hevents
  have htop := ht.top
  have hcount : kFrameCount = 2 ^ 25 := rfl
  have hbelow := ht.below
  cases hspec with
  | refused incr hno =>
    refine ⟨ht.inRange, htop, ht.taken, ht.breakEnd, ?_, hbelow, still_snoc ht.still ?_,
      apart_snoc ht.apart ?_⟩
    · rw [granted_snoc]
      simpa [Event.granted] using ht.blocks
    · rintro incr' q q' ⟨⟩
      rfl
    · rintro n r ⟨⟩
  | moved incr hpos hset hlt =>
    have hsum := toNat_add_signExtend (q := t.heap.programBreak) (by omega) hpos
    have hne : t.heap.programBreak ≠ -1 := by
      intro h
      rw [h] at hbelow
      have : (-1 : SizeT).toNat = 2 ^ 64 - 1 := by decide
      omega
    refine ⟨ht.inRange, htop, ht.taken, ht.breakEnd, ?_, ?_, still_snoc ht.still ?_,
      apart_snoc ht.apart ?_⟩
    · rw [granted_snoc]
      simp only [Event.granted, if_neg hne, Option.toList_some, hsum]
      exact ht.blocks.snoc (b := ⟨_, _⟩)
    · rw [BitVec.lt_def, ht.breakEnd] at hlt
      exact hlt
    · intro incr' q q' heq
      rw [Event.sbrk.injEq] at heq
      exact absurd heq.2.1 hne
    · rintro n r ⟨⟩
  | allocated n r mm hspec =>
    refine ⟨hspec.rangeEnd_eq ▸ ht.inRange, htop, ht.taken.trans hspec.used_subset, ht.breakEnd, ?_,
      hbelow, still_snoc ht.still ?_, apart_snoc ht.apart ?_⟩
    · rw [granted_snoc]
      simpa [Event.granted] using ht.blocks
    · rintro incr' q q' ⟨⟩
    · rintro n' r' ⟨⟩ hok
      exact (hspec.disjoint_used hok).mono_right ht.taken

inductive InitSpec (h : Heap) : Error → Heap → Prop
  | failed (hfit : ∀ p, ¬ h.mm.FitsIn kHeapFrames p) :
    InitSpec h (makeError .kNoEnoughMemory 46) h
  | reserved (p : ℕ) (h' : Heap) (hfit : IsLeast {p | h.mm.FitsIn kHeapFrames p} p)
      (hm : Marked h.mm h'.mm (Set.Ico p (p + kHeapFrames.toNat)))
      (hbreak : h'.programBreak.toNat = p * 4096)
      (hend : h'.programBreakEnd.toNat = (p + kHeapFrames.toNat) * 4096) :
    InitSpec h (makeError .kSuccess 82) h'

theorem initializeHeap_spec (hr : h.mm.rangeEnd.id.toNat ≤ kFrameCount) :
    ∃ e h', initializeHeap h = some (e, h') ∧ InitSpec h e h' := by
  obtain ⟨r, mm, ha, hspec⟩ := allocate_spec (n := kHeapFrames) hr (by decide)
  simp only [initializeHeap, ha, Option.bind_eq_bind, Option.bind_some]
  cases hspec with
  | noEnoughMemory hfit => exact ⟨_, _, rfl, .failed hfit⟩
  | success s mm hfit hm =>
    have hle := hfit.1.le_hi
    have hcount : kFrameCount = 2 ^ 25 := rfl
    have hframes : kHeapFrames.toNat = 32768 := rfl
    have hbreak : (s.id * kBytesPerFrame).toNat = s.id.toNat * 4096 := by
      rw [BitVec.toNat_mul, show kBytesPerFrame.toNat = 4096 from rfl]
      omega
    refine ⟨_, _, rfl, .reserved s.id.toNat _ hfit hm hbreak ?_⟩
    show (s.id * kBytesPerFrame + kHeapFrames * kBytesPerFrame).toNat = _
    rw [BitVec.toNat_add, hbreak, show (kHeapFrames * kBytesPerFrame).toNat = 32768 * 4096 from rfl]
    omega

theorem Reserved.init {p : ℕ} (hr : h.mm.rangeEnd.id.toNat ≤ kFrameCount)
    (hfit : h.mm.FitsIn kHeapFrames p) (hm : Marked h.mm h'.mm (Set.Ico p (p + kHeapFrames.toNat)))
    (hbreak : h'.programBreak.toNat = p * 4096)
    (hend : h'.programBreakEnd.toNat = (p + kHeapFrames.toNat) * 4096) : Reserved p ⟨h', []⟩ where
  inRange := hm.rangeEnd ▸ hr
  top := hfit.le_hi.trans hr
  taken := by
    rw [hm.used]
    exact Set.subset_union_right
  breakEnd := hend
  blocks := hbreak.symm
  below := by
    have hframes : kHeapFrames.toNat = 32768 := rfl
    show h'.programBreak.toNat < _
    omega
  still := by simp
  apart := by simp

/-- The heap and the blocks of `Allocate` never overlap, whatever the order of the calls. -/
theorem heap_apart (h₀ : Heap) (hbreak : h₀.programBreak = 0)
    (hbegin : 1 ≤ h₀.mm.rangeBegin.id.toNat) (hr : h₀.mm.rangeEnd.id.toNat ≤ kFrameCount) :
    ∃ e h₁, initializeHeap h₀ = some (e, h₁) ∧
      (e.toBool = true → h₁ = h₀ ∧ ∀ calls t, h₁.run calls = some t →
        ∀ incr ret q q', Event.sbrk incr ret q q' ∈ t.events → ret = -1) ∧
      (e.toBool = false → ∃ p, 1 ≤ p ∧ h₀.mm.FitsIn kHeapFrames p ∧
        Marked h₀.mm h₁.mm (Set.Ico p (p + kHeapFrames.toNat)) ∧ ∀ calls t, h₁.run calls = some t →
          (∀ b ∈ granted t.events,
            p * 4096 ≤ b.start ∧ b.start + b.len ≤ (p + kHeapFrames.toNat) * 4096) ∧
          ((granted t.events).IsChain fun b c => b.start + b.len = c.start) ∧
          ((granted t.events).Pairwise fun b c => Disjoint b.places c.places) ∧
          (∀ incr q q', Event.sbrk incr (-1) q q' ∈ t.events → q' = q) ∧
          ∀ n r, Event.allocate n r ∈ t.events → r.error.toBool = false →
            Disjoint (blockOf r.value n).places (Set.Ico p (p + kHeapFrames.toNat))) := by
  obtain ⟨e, h₁, hinit, hspec⟩ := initializeHeap_spec hr
  refine ⟨e, h₁, hinit, fun he => ?_, fun he => ?_⟩
  · cases hspec with
    | reserved => cases he
    | failed =>
      refine ⟨rfl, fun calls t hrun => ?_⟩
      have hinv : Unset t := Run.inv (fun _ _ _ _ ht hs => ht.step hs) ⟨hr, hbreak, by simp⟩ hrun
      exact hinv.refused
  · cases hspec with
    | failed => cases he
    | reserved p h₁ hfit hm hstart hend =>
      refine ⟨p, hbegin.trans hfit.1.lo_le, hfit.1, hm, fun calls t hrun => ?_⟩
      have h₁r : Reserved p ⟨h₁, []⟩ := .init hr hfit.1 hm hstart hend
      have hinv : Reserved p t := Run.inv (fun _ _ _ _ ht hs => ht.step hs) h₁r hrun
      refine ⟨fun b hb => ?_, hinv.blocks.isChain, hinv.blocks.pairwise_disjoint, hinv.still,
        hinv.apart⟩
      obtain ⟨h1, h2⟩ := hinv.blocks.inside hb
      exact ⟨h1, h2.trans hinv.below.le⟩

def roomy : Heap := ⟨⟨fun _ => 0, ⟨1⟩, ⟨32770⟩⟩, 0, 0, 0⟩

theorem roomy_used : roomy.mm.used = ∅ := by
  ext f
  rw [mem_used, WordArray.bit]
  simp [roomy]

theorem roomy_fits : roomy.mm.FitsIn kHeapFrames 1 :=
  ⟨by decide, by decide, fun f _ _ => by simp [roomy_used]⟩

/-- After `InitializeHeap` one frame is left behind the heap. -/
theorem roomy_initialized : ∃ mm, initializeHeap roomy = some (makeError .kSuccess 82, ⟨mm, 0x1000, 0x8001000, 0⟩) ∧
    mm.rangeEnd.id.toNat ≤ kFrameCount ∧ IsLeast {t | mm.FitsIn 1 t} 32769 := by
  have hr : roomy.mm.rangeEnd.id.toNat ≤ kFrameCount := by decide
  obtain ⟨mm, ha, hm⟩ := allocate_of_isLeast hr (n := kHeapFrames) (by decide) ⟨roomy_fits, fun t ht => ht.lo_le⟩
  have hused : ∀ f, f ∈ mm.used ↔ 1 ≤ f ∧ f < 32769 := fun f => by
    simp only [hm.used, roomy_used, Set.empty_union, Set.mem_Ico]
    rfl
  refine ⟨mm, ?_, hm.rangeEnd ▸ hr, ⟨?_, ?_, fun f hf _ hmem => ?_⟩, fun t ht => ?_⟩
  · simp only [initializeHeap, ha, Option.bind_eq_bind, Option.bind_some]
    rfl
  · rw [hm.rangeBegin]
    decide
  · rw [hm.rangeEnd]
    decide
  · have hlt := ((hused f).1 hmem).2
    omega
  · have hlo := ht.lo_le
    rw [hm.rangeBegin] at hlo
    have hout := (not_congr (hused t)).1 (ht.free t le_rfl (Nat.lt_succ_self t))
    by_contra hlt
    exact hout ⟨hlo, by omega⟩

/-- Two grants, a block behind the heap between them, and a request that is too large. -/
theorem heap_apart_roomy :
    ∃ h₁ t, initializeHeap roomy = some (makeError .kSuccess 82, h₁) ∧
      h₁.run [.sbrk 16, .allocate 1, .sbrk 0x7fffffff, .sbrk 32] = some t ∧
      granted t.events = [⟨0x1000, 16⟩, ⟨0x1010, 32⟩] ∧
      (granted t.events).Pairwise (fun b c => Disjoint b.places c.places) ∧
      ∃ p r, Event.allocate 1 r ∈ t.events ∧ r.error.toBool = false ∧
        Disjoint (blockOf r.value 1).places (Set.Ico p (p + kHeapFrames.toNat)) := by
  obtain ⟨mm, hmm, hr, hfit⟩ := roomy_initialized
  obtain ⟨mm', ha, -⟩ := allocate_of_isLeast hr (n := 1) (by decide) hfit
  obtain ⟨e, h₁, hinit, -, hok⟩ := heap_apart roomy rfl (by decide) (by decide)
  obtain ⟨rfl, rfl⟩ := Prod.mk.inj (Option.some_inj.1 (hinit.symm.trans hmm))
  obtain ⟨p, -, -, -, hruns⟩ := hok rfl
  let e₁ : Event := .sbrk 16 0x1000 0x1000 0x1010
  let e₂ : Event := .allocate 1 ⟨⟨32769⟩, makeError .kSuccess 56⟩
  have hallocate : Trace.step ⟨⟨mm, 0x1010, 0x8001000, 0⟩, [e₁]⟩ (.allocate 1) =
      some ⟨⟨mm', 0x1010, 0x8001000, 0⟩, [e₁, e₂]⟩ := by
    rw [Trace.step, step, if_pos (by decide), perform, ha]
    rfl
  have hrefused : Heap.sbrk ⟨mm', 0x1010, 0x8001000, 0⟩ 0x7fffffff = (-1, ⟨mm', 0x1010, 0x8001000, ENOMEM⟩) := by
    have hend : (0x1010 : SizeT) + BitVec.signExtend 64 (0x7fffffff : BitVec 32) ≥ 0x8001000 := by decide
    exact if_pos (.inr hend)
  have hrun : run ⟨mm, 0x1000, 0x8001000, 0⟩ [.sbrk 16, .allocate 1, .sbrk 0x7fffffff, .sbrk 32] =
      some ⟨⟨mm', 0x1030, 0x8001000, ENOMEM⟩,
        [e₁, e₂, .sbrk 0x7fffffff (-1) 0x1010 0x1010, .sbrk 32 0x1010 0x1010 0x1030]⟩ := by
    refine Run.cons_eq_some.2 ⟨_, rfl, Run.cons_eq_some.2 ⟨_, hallocate, Run.cons_eq_some.2
      ⟨⟨⟨mm', 0x1010, 0x8001000, ENOMEM⟩, [e₁, e₂, .sbrk 0x7fffffff (-1) 0x1010 0x1010]⟩, ?_, rfl⟩⟩⟩
    rw [Trace.step, step, if_pos (by decide), perform, hrefused]
    rfl
  obtain ⟨-, -, hdisj, -, hapart⟩ := hruns _ _ hrun
  have hmem : e₂ ∈ [e₁, e₂, .sbrk 0x7fffffff (-1) 0x1010 0x1010, .sbrk 32 0x1010 0x1010 0x1030] := by simp
  exact ⟨_, _, hinit, hrun, rfl, hdisj, p, _, hmem, rfl, hapart 1 _ hmem rfl⟩

end Heap
end MosaOS
