import MosaOS.BootMemory
import MosaOS.Grants
import MosaOS.LoadedPages
import MosaOS.Reachable
import MosaOS.Setup

/-!
# The memory of the clients, and the memory of the kernel

After the set-up the clients of the memory manager ask for frames and write to the blocks they hold. The memory
manager is in memory itself: a call reads it there, writes it back, and writes to the stack. What a client reads in
its block is what it wrote there last (`private_contents`), whatever the others do, and the kernel stays as it is for
as long as the memory map does not call its pages free (`kernel_stays_ready`, `loaded_kernel_stays_ready`).
-/

namespace MosaOS
open FirstFit ByteMem

/-! ### The memory manager in memory -/

namespace BitmapMemoryManager

/-- `sizeof(BitmapMemoryManager)`. -/
def size : ℕ := 8 * kMapLines + 16

def load (m : Memory) (a : SizeT) : BitmapMemoryManager where
  allocMap i := readU64 m (a + BitVec.ofNat 64 (8 * i))
  rangeBegin := ⟨readU64 m (a + BitVec.ofNat 64 (8 * kMapLines))⟩
  rangeEnd := ⟨readU64 m (a + BitVec.ofNat 64 (8 * kMapLines + 8))⟩

def store (mm : BitmapMemoryManager) (a : SizeT) (m : Memory) : Memory :=
  let m := writeArray m a 8 fun i => (mm.allocMap i).toNat
  let m := writeNat m 8 (a + BitVec.ofNat 64 (8 * kMapLines)) mm.rangeBegin.id.toNat
  writeNat m 8 (a + BitVec.ofNat 64 (8 * kMapLines + 8)) mm.rangeEnd.id.toNat

theorem size_eq : size = 8 * kMapLines + 16 := rfl

theorem kMapLines_eq : kMapLines = 524288 := rfl

variable {m m' : Memory} {a : SizeT}

theorem readU64_writeNat (m : Memory) (a : SizeT) (v : BitVec 64) : readU64 (writeNat m 8 a v.toNat) a = v := by
  rw [readU64, readNat_writeNat (by decide)]
  refine BitVec.eq_of_toNat_eq ?_
  rw [BitVec.toNat_ofNat]
  exact (Nat.mod_mod _ _).trans (Nat.mod_eq_of_lt v.isLt)

theorem store_frame (mm : BitmapMemoryManager) (a : SizeT) (m : Memory) :
    Set.EqOn (mm.store a m) m (range a size)ᶜ := by
  have hlines := kMapLines_eq
  have hsize := size_eq
  intro x hx
  have hmap : range a (8 * kMapLines) ⊆ range a size := range_mono (by omega)
  have hbegin : range (a + BitVec.ofNat 64 (8 * kMapLines)) 8 ⊆ range a size :=
    range_add_subset (by omega) (by omega)
  have hend : range (a + BitVec.ofNat 64 (8 * kMapLines + 8)) 8 ⊆ range a size :=
    range_add_subset (by omega) (by omega)
  rw [store, writeNat_of_notMem fun h => hx (hend h), writeNat_of_notMem fun h => hx (hbegin h),
    writeArray_of_notMem fun h => hx (hmap h)]

theorem load_congr (h : Set.EqOn m' m (range a size)) : load m' a = load m a := by
  have hlines := kMapLines_eq
  have hsize := size_eq
  have hread : ∀ k, k + 8 ≤ size → readU64 m' (a + BitVec.ofNat 64 k) = readU64 m (a + BitVec.ofNat 64 k) :=
    fun k hk => readU64_congr h rfl hk (by omega)
  have hmap : (load m' a).allocMap = (load m a).allocMap := funext fun i => hread (8 * i) (by omega)
  have hbegin : (load m' a).rangeBegin = (load m a).rangeBegin := congrArg FrameID.mk (hread _ (by omega))
  have hend : (load m' a).rangeEnd = (load m a).rangeEnd := congrArg FrameID.mk (hread _ (by omega))
  calc load m' a = ⟨(load m' a).allocMap, (load m' a).rangeBegin, (load m' a).rangeEnd⟩ := rfl
    _ = load m a := by rw [hmap, hbegin, hend]

/-- The memory manager is read as it was stored. -/
theorem load_store (mm : BitmapMemoryManager) (a : SizeT) (m : Memory) : load (mm.store a m) a = mm := by
  have hcount := kMapLines_eq
  let m₁ := writeArray m a 8 fun i => (mm.allocMap i).toNat
  let m₂ := writeNat m₁ 8 (a + BitVec.ofNat 64 (8 * kMapLines)) mm.rangeBegin.id.toNat
  have hends : Disjoint (range (a + BitVec.ofNat 64 (8 * kMapLines)) 8)
      (range (a + BitVec.ofNat 64 (8 * kMapLines + 8)) 8) := disjoint_range_add (by omega) (by omega)
  have hmap : ∀ (m' : Memory) (v k : ℕ), k ≤ 8 →
      Set.EqOn (writeNat m' 8 (a + BitVec.ofNat 64 (8 * kMapLines + k)) v) m' (range a (8 * kMapLines)) := by
    intro m' v k hk
    have h := disjoint_range_add (a := a) (j := 0) (n := 8 * kMapLines) (k := 8 * kMapLines + k) (by omega)
      (show 8 * kMapLines + k + 8 ≤ 2 ^ 64 by omega)
    rw [BitVec.add_zero] at h
    exact frame_apart (eqOn_writeNat ..) h
  have hlines : (load (mm.store a m) a).allocMap = mm.allocMap := by
    funext i
    have hkept : Set.EqOn (mm.store a m) m₁ (range a (8 * kMapLines)) :=
      (hmap m₂ _ 8 le_rfl).trans (hmap m₁ _ 0 (Nat.zero_le _))
    have hi := i.isLt
    exact (readU64_congr hkept rfl (by omega) (by omega)).trans (readU64_writeArray (by omega) i)
  have hbegin : (load (mm.store a m) a).rangeBegin = mm.rangeBegin := by
    have hread : readU64 (mm.store a m) (a + BitVec.ofNat 64 (8 * kMapLines)) = mm.rangeBegin.id := by
      rw [← readU64_writeNat m₁ (a + BitVec.ofNat 64 (8 * kMapLines)) mm.rangeBegin.id]
      exact congrArg (BitVec.ofNat 64) (readNat_writeNat_of_disjoint (by decide) hends)
    exact congrArg FrameID.mk hread
  have hend : (load (mm.store a m) a).rangeEnd = mm.rangeEnd :=
    congrArg FrameID.mk (readU64_writeNat m₂ _ mm.rangeEnd.id)
  calc load (mm.store a m) a = ⟨(load (mm.store a m) a).allocMap, (load (mm.store a m) a).rangeBegin,
        (load (mm.store a m) a).rangeEnd⟩ := rfl
    _ = mm := by rw [hlines, hbegin, hend]

end BitmapMemoryManager

open BitmapMemoryManager

/-! ### Clients -/

def blockBytes (b : Block) : Set SizeT := {a | a.toNat / 4096 ∈ b.places}

instance (b : Block) (a : SizeT) : Decidable (a ∈ blockBytes b) :=
  inferInstanceAs (Decidable (b.start ≤ a.toNat / 4096 ∧ a.toNat / 4096 < b.start + b.len))

inductive Action
  /-- A call, and what it leaves on the stack. -/
  | call (c : Call) (scratch : Memory)
  /-- The holder of `b` writes the byte `v`. -/
  | store (b : Block) (a : SizeT) (v : BitVec 8)

/-- The calls among the actions. -/
def Action.calls (actions : List Action) : List Call := actions.filterMap fun
  | .call c _ => some c
  | .store .. => none

/-- The blocks that are held, and the memory. -/
structure Running where
  live : List Block
  mem : Memory

namespace Running

section
variable (buf : SizeT) (stack : List (SizeT × ℕ))

/-- The memory manager is at `buf`. Clients write to blocks that they hold, where the page tables map them. -/
def step (s : Running) : Action → Option Running
  | .call c scratch => ((⟨load s.mem buf, s.live⟩ : Session).step c).map fun session =>
      ⟨session.live, overwrite stack scratch (session.mm.store buf s.mem)⟩
  | .store b a v =>
    if b ∈ s.live ∧ a ∈ blockBytes b ∧ a.toNat < kPageDirectoryCount * 2 ^ 30 then
      some { s with mem := Function.update s.mem a v }
    else none

def run (s : Running) (actions : List Action) : Option Running := actions.foldlM (step buf stack) s

end

/-- What the holder of `b` wrote to `a` last. -/
def lastStored (b : Block) (a : SizeT) (actions : List Action) : Option (BitVec 8) :=
  actions.foldl (fun last action =>
    match action with
    | .store b' a' v => if b' = b ∧ a' = a then some v else last
    | .call _ _ => last) none

theorem lastStored_snoc (b : Block) (a : SizeT) (actions : List Action) (action : Action) :
    lastStored b a (actions ++ [action]) =
      match action with
      | .store b' a' v => if b' = b ∧ a' = a then some v else lastStored b a actions
      | .call _ _ => lastStored b a actions := by
  unfold lastStored
  rw [List.foldl_append]
  rfl

variable {buf : SizeT} {stack : List (SizeT × ℕ)} {m₀ : Memory} {s s' : Running} {action : Action}
  {actions : List Action}

/-- The memory manager and the stack are in frames that the memory manager does not hand out. -/
structure Reserved (buf : SizeT) (stack : List (SizeT × ℕ)) (m₀ : Memory) : Prop where
  inRange : (load m₀ buf).rangeEnd.id.toNat ≤ kFrameCount
  manager_kept : ∀ a ∈ range buf BitmapMemoryManager.size, a.toNat / 4096 ∉ Log.clearFrames (load m₀ buf)
  stack_kept : ∀ a ∈ bytesOf stack, a.toNat / 4096 ∉ Log.clearFrames (load m₀ buf)
  apart : Disjoint (bytesOf stack) (range buf BitmapMemoryManager.size)

/-- The memory of a run that began with `m₀`, and the log of the memory manager. -/
structure Inv (buf : SizeT) (stack : List (SizeT × ℕ)) (m₀ : Memory) (actions : List Action) (s : Running)
    (l : Log) : Prop where
  log : Log.Inv (load m₀ buf) l
  session : (⟨load m₀ buf, []⟩ : Session).run (Action.calls actions) = some l.session
  live : s.live = l.session.live
  manager : load s.mem buf = l.session.mm
  contents : ∀ b ∈ l.granted, ∀ a ∈ blockBytes b, s.mem a = (lastStored b a actions).getD (m₀ a)
  silent : ∀ b ∉ l.granted, ∀ a, lastStored b a actions = none
  frame : ∀ a, (∀ b ∈ l.granted, a ∉ blockBytes b) → a ∉ range buf BitmapMemoryManager.size → a ∉ bytesOf stack →
    s.mem a = m₀ a

theorem Inv.init (hr : Reserved buf stack m₀) : Inv buf stack m₀ [] ⟨[], m₀⟩ ⟨⟨load m₀ buf, []⟩, []⟩ where
  log := .init hr.inRange
  session := rfl
  live := rfl
  manager := rfl
  contents := by simp
  silent _ _ _ := rfl
  frame _ _ _ _ := rfl

/-- The next call finds the memory manager as this one leaves it. -/
theorem load_after_call (hap : Disjoint (bytesOf stack) (range buf BitmapMemoryManager.size)) (scratch m : Memory)
    (mm : BitmapMemoryManager) : load (overwrite stack scratch (mm.store buf m)) buf = mm := by
  have hframe := eqOn_overwrite stack scratch (mm.store buf m)
  rw [load_congr (frame_apart hframe hap.symm), load_store]

/-- Calls of the memory manager go through here as they go through by themselves. -/
theorem run_calls (hap : Disjoint (bytesOf stack) (range buf BitmapMemoryManager.size)) (scratch : Memory)
    {calls : List Call} {session : Session} (h : Session.run ⟨load s.mem buf, s.live⟩ calls = some session) :
    ∃ s', run buf stack s (calls.map (Action.call · scratch)) = some s' ∧ s'.live = session.live := by
  induction calls generalizing s with
  | nil =>
    have hsession : (⟨load s.mem buf, s.live⟩ : Session) = session := Option.some.inj h
    exact ⟨s, rfl, congrArg Session.live hsession⟩
  | cons c calls ih =>
    obtain ⟨session₁, hstep, hrest⟩ := Run.cons_eq_some.1 h
    let s₁ : Running := ⟨session₁.live, overwrite stack scratch (session₁.mm.store buf s.mem)⟩
    have hload : load s₁.mem buf = session₁.mm := load_after_call hap scratch s.mem session₁.mm
    obtain ⟨s', hrun, hlive⟩ := ih (s := s₁) (by rw [hload]; exact hrest)
    exact ⟨s', Run.cons_eq_some.2 ⟨s₁, Option.map_eq_some_iff.2 ⟨session₁, hstep, rfl⟩, hrun⟩, hlive⟩

/-- A block is apart from the memory manager and the stack. -/
theorem Reserved.notMem (hr : Reserved buf stack m₀) {l : Log} (hlog : Log.Inv (load m₀ buf) l) {b : Block}
    (hb : b ∈ l.granted) {a : SizeT} (ha : a ∈ blockBytes b) :
    a ∉ range buf BitmapMemoryManager.size ∧ a ∉ bytesOf stack :=
  have hclear := hlog.granted_clear hb ha
  ⟨fun hmem => hr.manager_kept a hmem hclear, fun hmem => hr.stack_kept a hmem hclear⟩

theorem Inv.call {l : Log} {c : Call} {scratch : Memory} {session : Session} (hr : Reserved buf stack m₀)
    (hI : Inv buf stack m₀ actions s l) (hs : (⟨load s.mem buf, s.live⟩ : Session).step c = some session) :
    ∃ l', Inv buf stack m₀ (actions ++ [.call c scratch])
      ⟨session.live, overwrite stack scratch (session.mm.store buf s.mem)⟩ l' := by
  have hsame : (⟨load s.mem buf, s.live⟩ : Session) = l.session := by rw [hI.manager, hI.live]
  rw [hsame] at hs
  have hstep : l.step c = some ⟨session, (l.session.grant c).toList ++ l.granted⟩ := by
    rw [Log.step, hs]
    rfl
  have hlog := hI.log.step hstep
  obtain ⟨-, -, hapart⟩ := List.pairwise_append.1 hlog.ledger.disjoint
  -- the call writes to the memory manager and to the stack
  have hkeep : ∀ a, a ∉ range buf BitmapMemoryManager.size → a ∉ bytesOf stack →
      overwrite stack scratch (session.mm.store buf s.mem) a = s.mem a := by
    intro a hmanager hstack
    rw [overwrite_of_notMem hstack, session.mm.store_frame buf s.mem hmanager]
  refine ⟨_, hlog, ?_, rfl, ?_, ?_, ?_, ?_⟩
  · have hcalls : Action.calls (actions ++ [.call c scratch]) = Action.calls actions ++ [c] := List.filterMap_append
    rw [hcalls]
    exact Run.append_eq_some.2 ⟨_, hI.session, Run.cons_eq_some.2 ⟨_, hs, rfl⟩⟩
  · exact load_after_call hr.apart scratch s.mem session.mm
  · intro b hb a ha
    obtain ⟨hmanager, hstack⟩ := hr.notMem hlog hb ha
    refine (hkeep a hmanager hstack).trans ?_
    rw [lastStored_snoc]
    rcases List.mem_append.1 hb with hnew | hold
    · -- a new block is apart from all blocks before it
      have hfresh : b ∉ l.granted := fun hold =>
        Set.disjoint_left.1 (hapart b hnew b hold) ha ha
      have hframe := hI.frame a (fun d hd had => Set.disjoint_left.1 (hapart b hnew d hd) ha had) hmanager hstack
      simp [hI.silent b hfresh a, hframe]
    · exact hI.contents b hold a ha
  · intro b hb a
    rw [lastStored_snoc]
    exact hI.silent b (fun hold => hb (List.mem_append_right _ hold)) a
  · intro a ha hmanager hstack
    refine (hkeep a hmanager hstack).trans ?_
    exact hI.frame a (fun b hb => ha b (List.mem_append_right _ hb)) hmanager hstack

theorem Inv.store {l : Log} {b : Block} {a : SizeT} {v : BitVec 8} (hr : Reserved buf stack m₀)
    (hI : Inv buf stack m₀ actions s l) (hb : b ∈ s.live) (ha : a ∈ blockBytes b) :
    Inv buf stack m₀ (actions ++ [.store b a v]) { s with mem := Function.update s.mem a v } l := by
  have hgranted : b ∈ l.granted := hI.log.live (hI.live ▸ hb)
  obtain ⟨hmanager, -⟩ := hr.notMem hI.log hgranted ha
  refine ⟨hI.log, ?_, hI.live, ?_, ?_, ?_, ?_⟩
  · have hcalls : Action.calls (actions ++ [.store b a v]) = Action.calls actions :=
      List.filterMap_append.trans (List.append_nil _)
    rw [hcalls, hI.session]
  · rw [← hI.manager]
    refine load_congr fun x hx => Function.update_of_ne ?_ ..
    rintro rfl
    exact hmanager hx
  · intro d hd x hx
    rw [lastStored_snoc]
    by_cases hxa : x = a
    · subst hxa
      obtain rfl : b = d := hI.log.ledger.eq_of_mem hgranted hd ha hx
      simp
    · have hax : ¬ a = x := fun h => hxa h.symm
      simp [hxa, hax, hI.contents d hd x hx]
  · intro d hd x
    have hbd : ¬ b = d := by
      rintro rfl
      exact hd hgranted
    rw [lastStored_snoc]
    simp [hbd, hI.silent d hd x]
  · intro x hx hxm hxs
    have hxa : x ≠ a := by
      rintro rfl
      exact hx b hgranted ha
    exact (Function.update_of_ne hxa _ _).trans (hI.frame x hx hxm hxs)

theorem Inv.of_run (hr : Reserved buf stack m₀) (h : run buf stack ⟨[], m₀⟩ actions = some s) :
    ∃ l, Inv buf stack m₀ actions s l := by
  induction actions using List.reverseRecOn generalizing s with
  | nil =>
    cases h
    exact ⟨_, .init hr⟩
  | append_singleton actions action ih =>
    obtain ⟨s₁, hrun, hlast⟩ := Run.append_eq_some.1 h
    obtain ⟨s₂, hstep, hnil⟩ := Run.cons_eq_some.1 hlast
    cases hnil
    obtain ⟨l, hI⟩ := ih hrun
    cases action with
    | call c scratch =>
      obtain ⟨session, hs, rfl⟩ := Option.map_eq_some_iff.1 hstep
      exact hI.call hr hs
    | store b a v =>
      simp only [Running.step] at hstep
      split at hstep
      · rename_i hok
        cases hstep
        exact ⟨l, hI.store hr hok.1 hok.2.1⟩
      · cases hstep

/-- Besides the memory manager and the stack, only frames that were clear in the beginning are ever written to. -/
theorem mem_of_not_clear (hr : Reserved buf stack m₀) (h : run buf stack ⟨[], m₀⟩ actions = some s) {a : SizeT}
    (ha : a.toNat / 4096 ∉ Log.clearFrames (load m₀ buf)) (hmanager : a ∉ range buf BitmapMemoryManager.size)
    (hstack : a ∉ bytesOf stack) : s.mem a = m₀ a := by
  obtain ⟨l, hI⟩ := Inv.of_run hr h
  exact hI.frame a (fun b hb hab => ha (hI.log.granted_clear hb hab)) hmanager hstack

/-- What stands in a live block is what its holder stored there last, else what was there in the
beginning: neither other clients nor later calls of the memory manager change it. Outside of the frames that
were clear in the beginning nothing changes but the memory manager and the stack, and the memory manager is what the
calls alone make of it. -/
theorem private_contents (buf : SizeT) (stack : List (SizeT × ℕ)) (m₀ : Memory) (hr : Reserved buf stack m₀)
    (actions : List Action) (s : Running) (h : run buf stack ⟨[], m₀⟩ actions = some s) :
    (∀ b ∈ s.live, ∀ a ∈ blockBytes b, s.mem a = (lastStored b a actions).getD (m₀ a)) ∧
      (∀ a : SizeT, a.toNat / 4096 ∉ Log.clearFrames (load m₀ buf) → a ∉ range buf BitmapMemoryManager.size →
        a ∉ bytesOf stack → s.mem a = m₀ a) ∧
      ∃ session, (⟨load m₀ buf, []⟩ : Session).run (Action.calls actions) = some session ∧
        s.live = session.live ∧ load s.mem buf = session.mm := by
  obtain ⟨l, hI⟩ := Inv.of_run hr h
  refine ⟨fun b hb a ha => hI.contents b (hI.log.live (hI.live ▸ hb)) a ha,
    fun a ha hmanager hstack => mem_of_not_clear hr h ha hmanager hstack, l.session, hI.session, hI.live, hI.manager⟩

/-- The memory manager at 1 MiB, and a page of stack below it. -/
def emptyMemory : Memory := emptyManager.store 0x100000 fun _ => 0

theorem emptyMemory_reserved : Reserved 0x100000 [(0x80000, 0x1000)] emptyMemory := by
  have hload : load emptyMemory 0x100000 = emptyManager := load_store ..
  have hsize : BitmapMemoryManager.size = 0x400010 := rfl
  have hstack : ∀ a : SizeT, a ∈ bytesOf [(0x80000, 0x1000)] ↔ 0x80000 ≤ a.toNat ∧ a.toNat < 0x81000 := by
    intro a
    have hpage : a ∈ range (0x80000 : SizeT) 0x1000 ↔ 0x80000 ≤ a.toNat ∧ a.toNat < 0x81000 := mem_range_iff (by simp)
    rw [← hpage]
    simp [bytesOf]
  have hclear : ∀ f ∈ Log.clearFrames emptyManager, f < 64 := fun f hf =>
    (Finset.mem_Ico.1 (Finset.mem_filter.1 hf).1).2
  refine ⟨?_, fun a ha hf => ?_, fun a ha hf => ?_, ?_⟩
  · rw [hload]
    exact Session.emptyManager_inRange
  · rw [hload] at hf
    have hlo := ((mem_range_iff (by simp [hsize])).1 ha).1
    have hlt := hclear _ hf
    simp only [BitVec.reduceToNat] at hlo
    omega
  · rw [hload] at hf
    have hlo := ((hstack a).1 ha).1
    have hlt := hclear _ hf
    omega
  · rw [Set.disjoint_left]
    intro a ha hmem
    have hlo := ((mem_range_iff (by simp [hsize])).1 hmem).1
    have hhi := ((hstack a).1 ha).2
    simp only [BitVec.reduceToNat] at hlo
    omega

/-- The first of three frames is written to, and one more frame is asked for after that. The calls leave something on
the stack. -/
theorem private_contents_emptyManager :
    ∃ s, run 0x100000 [(0x80000, 0x1000)] ⟨[], emptyMemory⟩
        [.call (.allocate 3) fun _ => 0xff, .store ⟨1, 3⟩ 0x1000 7, .call (.allocate 1) fun _ => 0xee] = some s ∧
      s.mem 0x1000 = 7 ∧ s.mem 0x1001 = 0 ∧
      ∃ session, Session.run ⟨load emptyMemory 0x100000, []⟩ [.allocate 3, .allocate 1] = some session ∧
        s.live = session.live ∧ load s.mem 0x100000 = session.mm := by
  have hload : load emptyMemory 0x100000 = emptyManager := load_store ..
  obtain ⟨mm', hfirst, -⟩ := Session.emptyManager_run_allocate (n := 3) (by simp) (by simp)
  obtain ⟨s₁, hs₁, hnil⟩ := Run.cons_eq_some.1 hfirst
  cases hnil
  have hI := (Session.Inv.init Session.emptyManager_inRange).run hfirst
  obtain ⟨s₂, hs₂⟩ := hI.step_allocate (n := 1) (by simp)
  have hlive : ⟨1, 3⟩ ∈ s₂.live := by
    cases hI.step_cases hs₂ with
    | refused => exact List.mem_cons_self
    | granted => exact List.mem_cons_of_mem _ List.mem_cons_self
  let m₁ : Memory := overwrite [(0x80000, 0x1000)] (fun _ => 0xff) (mm'.store 0x100000 emptyMemory)
  let m₂ : Memory := Function.update m₁ 0x1000 7
  have hload₂ : load m₂ 0x100000 = mm' := by
    have hframe : Set.EqOn m₂ m₁ (range 0x100000 BitmapMemoryManager.size) := by
      intro x hx
      refine Function.update_of_ne ?_ ..
      rintro rfl
      exact absurd (mem_range.1 hx) (by decide)
    rw [load_congr hframe]
    exact load_after_call emptyMemory_reserved.apart _ _ mm'
  have hrun : run 0x100000 [(0x80000, 0x1000)] ⟨[], emptyMemory⟩
      [.call (.allocate 3) fun _ => 0xff, .store ⟨1, 3⟩ 0x1000 7, .call (.allocate 1) fun _ => 0xee] =
      some ⟨s₂.live, overwrite [(0x80000, 0x1000)] (fun _ => 0xee) (s₂.mm.store 0x100000 m₂)⟩ := by
    refine Run.cons_eq_some.2 ⟨⟨[⟨1, 3⟩], m₁⟩, ?_, ?_⟩
    · refine Option.map_eq_some_iff.2 ⟨⟨mm', [⟨1, 3⟩]⟩, ?_, rfl⟩
      rw [hload]
      exact hs₁
    · refine Run.cons_eq_some.2 ⟨⟨[⟨1, 3⟩], m₂⟩, ?_, ?_⟩
      · simp [step, blockBytes, Block.places, kPageDirectoryCount, m₂]
      · refine Run.cons_eq_some.2 ⟨_, Option.map_eq_some_iff.2 ⟨s₂, ?_, rfl⟩, rfl⟩
        rw [hload₂]
        exact hs₂
  obtain ⟨hcontents, -, hsession⟩ := private_contents _ _ _ emptyMemory_reserved _ _ hrun
  refine ⟨_, hrun, ?_, ?_, hsession⟩
  · exact hcontents ⟨1, 3⟩ hlive 0x1000 (by simp [blockBytes, Block.places])
  · have hout : (0x1001 : SizeT) ∉ range 0x100000 BitmapMemoryManager.size := fun hx =>
      absurd (mem_range.1 hx) (by decide)
    have hzero : emptyMemory 0x1001 = 0 := emptyManager.store_frame 0x100000 (fun _ => 0) hout
    exact (hcontents ⟨1, 3⟩ hlive 0x1001 (by simp [blockBytes, Block.places])).trans hzero

end Running

/-! ### The kernel's own memory -/

open X86

variable {o : KernelObjects} {m : MemoryMap} {count : ℕ} {allocMap : WordArray kMapLines 64}

/-- No descriptor that the boot scan may take frames from has a byte of `S`. -/
def MemoryMap.Protects (m : MemoryMap) (count : ℕ) (S : Set SizeT) : Prop :=
  ∀ a ∈ S, ∀ j < count, isAvailable (m.desc j).type = true → a.toNat ∉ (m.desc j).addresses

/-- Frames that the memory manager may hand out are frames of available descriptors. -/
theorem SetUp.not_clear {mm : BitmapMemoryManager} (h : SetUp m count allocMap mm) {S : Set SizeT}
    (hprotects : m.Protects count S) {a : SizeT} (ha : a ∈ S) : a.toNat / 4096 ∉ Log.clearFrames mm := by
  intro hclear
  obtain ⟨hrange, hbit⟩ := Finset.mem_filter.1 hclear
  have hlt := (Finset.mem_Ico.1 hrange).2
  have hr := h.inRange
  rw [getBit_ofNat_eq_false (by omega)] at hbit
  obtain ⟨-, j, hj⟩ := (h.clear _).1 ⟨hbit, hlt⟩
  refine hprotects a ha j hj.lt hj.avail (hj.mem ⟨?_, ?_⟩)
  · omega
  · omega

/-- Where the linker put the memory manager, and the stack that its calls use. -/
structure ManagerPlace (o : KernelObjects) where
  buf : SizeT
  stack : List (SizeT × ℕ)
  buf_own : range buf BitmapMemoryManager.size ⊆ bytesOf o.own
  stack_own : bytesOf stack ⊆ bytesOf o.own
  apart : Disjoint (bytesOf stack) (range buf BitmapMemoryManager.size)

/-- The kernel keeps its image out of reach of the clients, but for the memory manager and the stack. -/
theorem SetUp.image_kept {mm : BitmapMemoryManager} (p : ManagerPlace o) (h : SetUp m count allocMap mm)
    (hprotects : m.Protects count (bytesOf o.image)) (m₁ : Memory) {actions : List Action} {s : Running}
    (hs : Running.run p.buf p.stack ⟨[], mm.store p.buf m₁⟩ actions = some s) {a : SizeT}
    (ha : a ∈ bytesOf o.image) (hown : a ∉ bytesOf o.own) : s.mem a = m₁ a := by
  have hload : load (mm.store p.buf m₁) p.buf = mm := load_store ..
  have hr : Running.Reserved p.buf p.stack (mm.store p.buf m₁) := by
    refine ⟨?_, fun x hx => ?_, fun x hx => ?_, p.apart⟩
    · rw [hload]
      exact h.inRange
    · rw [hload]
      exact h.not_clear hprotects (o.own_image (p.buf_own hx))
    · rw [hload]
      exact h.not_clear hprotects (o.own_image (p.stack_own hx))
  have hclear : a.toNat / 4096 ∉ Log.clearFrames (load (mm.store p.buf m₁) p.buf) := by
    rw [hload]
    exact h.not_clear hprotects ha
  have hbuf : a ∉ range p.buf BitmapMemoryManager.size := fun hin => hown (p.buf_own hin)
  rw [Running.mem_of_not_clear hr hs hclear hbuf fun hin => hown (p.stack_own hin)]
  exact mm.store_frame p.buf m₁ hbuf

/-- The clients cannot spoil what the set-up of the processor has done. -/
theorem SystemFor.stays_ready {k : Machine} {intDefault intSegFault : SizeT} (p : ManagerPlace o)
    (hsys : SystemFor o.toTableObjects k.sys) (htables : KernelTables o.toTableObjects intDefault intSegFault k.mem)
    (hv : m.Valid count) (hprotects : m.Protects count (bytesOf o.image)) {m₁ : Memory} (hm₁ : o.Same k.mem m₁) :
    ∃ mm, setupMemoryManager m (load m₁ p.buf).allocMap = some mm ∧
      ∀ actions s, Running.run p.buf p.stack ⟨[], mm.store p.buf m₁⟩ actions = some s →
        (∀ m', o.Same s.mem m' → Ready intDefault intSegFault k.sys m') ∧
          ∀ a ∈ bytesOf o.image, a ∉ bytesOf o.own → s.mem a = m₁ a := by
  obtain ⟨mm, hmm, hup⟩ := hv.setUp (load m₁ p.buf).allocMap
  refine ⟨mm, hmm, fun actions s hs => ?_⟩
  have himage : ∀ a ∈ bytesOf o.image, a ∉ bytesOf o.own → s.mem a = m₁ a :=
    fun a ha hown => hup.image_kept p hprotects m₁ hs ha hown
  have hkept : o.Same m₁ s.mem := TableObjects.same_of_eqOn fun a ha =>
    himage a (o.tables_image ha) fun hown => Set.disjoint_left.1 o.own_tables hown ha
  exact ⟨fun m' hm' => (htables.same ((hm₁.trans hkept).trans hm')).ready hsys, himage⟩

/-- The page tables are behind the code. -/
def codeLayout : Layout where
  pml4Table := 0x110000
  pdpTable := 0x111000
  pageDirectory := 0x112000
  pml4Table_dvd := by decide
  pdpTable_dvd := by decide
  pageDirectory_dvd := by decide
  pml4Table_le := by decide
  pdpTable_le := by decide
  pageDirectory_le := by decide
  pml4_pdp := by decide
  pml4_pd := by decide
  pdp_pd := by decide

def lowTables : TableObjects where
  gdt := 0x160000
  idt := 0x161000
  tables := codeLayout
  gdt_idt := disjoint_range_of_le (by simp) (by simp) (by simp)
  gdt_tables := by
    simp only [Layout.bytes, Set.disjoint_union_right]
    refine ⟨⟨?_, ?_⟩, ?_⟩
    · exact disjoint_range_of_le (by simp) (by simp [codeLayout]) (by simp [codeLayout])
    · exact disjoint_range_of_le (by simp) (by simp [codeLayout]) (by simp [codeLayout])
    · exact disjoint_range_of_le (by simp) (by simp [codeLayout, kPageDirectoryCount])
        (by simp [codeLayout, kPageDirectoryCount])
  idt_tables := by
    simp only [Layout.bytes, Set.disjoint_union_right]
    refine ⟨⟨?_, ?_⟩, ?_⟩
    · exact disjoint_range_of_le (by simp) (by simp [codeLayout]) (by simp [codeLayout])
    · exact disjoint_range_of_le (by simp) (by simp [codeLayout]) (by simp [codeLayout])
    · exact disjoint_range_of_le (by simp) (by simp [codeLayout, kPageDirectoryCount])
        (by simp [codeLayout, kPageDirectoryCount])

theorem lowTables_bytes {a : SizeT} (ha : a ∈ lowTables.bytes) : 0x100000 ≤ a.toNat ∧ a.toNat < 0x200000 := by
  have hsub : ∀ {k n : ℕ}, k + n ≤ 0x100000 → a ∈ range ((0x100000 : SizeT) + BitVec.ofNat 64 k) n →
      a ∈ range (0x100000 : SizeT) 0x100000 := fun hk hmem => range_add_subset hk (hk.trans (by simp)) hmem
  have hfit : (0x100000 : SizeT).toNat + 0x100000 ≤ 2 ^ 64 := by simp
  refine (mem_range_iff hfit).1 ?_
  rcases ha with (ha | ha) | ((ha | ha) | ha)
  · exact hsub (k := 0x60000) (by simp) ha
  · exact hsub (k := 0x61000) (by simp) ha
  · exact hsub (k := 0x10000) (by simp) ha
  · exact hsub (k := 0x11000) (by simp) ha
  · exact hsub (k := 0x12000) (by simp [kPageDirectoryCount]) ha

/-- The memory manager, one MiB of stack and a page of other variables. -/
def lowOwn : List (SizeT × ℕ) := [(0xa20000, 0x400010), (0xe30000, 0x100000), (0xf30000, 0x1000)]

theorem lowOwn_bytes {a : SizeT} (ha : a ∈ bytesOf lowOwn) : 0xa20000 ≤ a.toNat ∧ a.toNat < 0xf31000 := by
  obtain ⟨b, hb, ha⟩ := ha
  simp only [lowOwn, List.mem_cons, List.not_mem_nil, or_false] at hb
  rcases hb with rfl | rfl | rfl
  all_goals
    have hin := (mem_range_iff (by simp)).1 ha
    simp only [BitVec.reduceToNat] at hin
    omega

theorem lowImage_bytes {a : SizeT} :
    a ∈ bytesOf [((0x100000 : SizeT), 0xf00000)] ↔ 0x100000 ≤ a.toNat ∧ a.toNat < 0x1000000 := by
  have hone : a ∈ range (0x100000 : SizeT) 0xf00000 ↔ 0x100000 ≤ a.toNat ∧ a.toNat < 0x1000000 := mem_range_iff (by simp)
  rw [← hone]
  simp [bytesOf]

def lowObjects : KernelObjects where
  toTableObjects := lowTables
  image := [(0x100000, 0xf00000)]
  own := lowOwn
  tables_image a ha := by
    have hin := lowTables_bytes ha
    exact lowImage_bytes.2 ⟨hin.1, by omega⟩
  own_image a ha := by
    have hin := lowOwn_bytes ha
    exact lowImage_bytes.2 ⟨by omega, by omega⟩
  own_tables := by
    refine Set.disjoint_left.2 fun a ha htab => ?_
    have hown := lowOwn_bytes ha
    have hin := lowTables_bytes htab
    omega
  low a ha := by
    have hin := (lowImage_bytes.1 ha).2
    rw [kPageDirectoryCount]
    omega

def lowPlace : ManagerPlace lowObjects where
  buf := 0xa20000
  stack := [(0xe30000, 0x100000)]
  buf_own a ha := ⟨(0xa20000, 0x400010), by simp [lowObjects, lowOwn], ha⟩
  stack_own a ha := by
    obtain ⟨b, hb, ha⟩ := ha
    rw [List.mem_singleton] at hb
    subst hb
    exact ⟨(0xe30000, 0x100000), by simp [lowObjects, lowOwn], ha⟩
  apart := by
    refine Set.disjoint_left.2 ?_
    rintro a ⟨b, hb, ha⟩ hbuf
    rw [List.mem_singleton] at hb
    subst hb
    have hfit : (0xa20000 : SizeT).toNat + 0x400010 ≤ 2 ^ 64 := by simp
    have hlo := (mem_range_iff (by simp)).1 ha
    have hhi := (mem_range_iff hfit).1 hbuf
    simp only [BitVec.reduceToNat] at hlo hhi
    omega

theorem mixedMap_protects {S : Set SizeT} (hS : ∀ a ∈ S, 0x100000 ≤ a.toNat) : mixedMap.Protects 5 S := by
  intro a ha j hj _ hmem
  have hlo := hS a ha
  rw [mixedMap_addresses hj, Set.mem_Ico] at hmem
  omega

/-- Memory as it may be when the kernel starts. -/
def staleMachine : Machine := ⟨⟨fun _ => 0, ⟨0, 0⟩, ⟨0, 0⟩, 0⟩, fun _ => 0xff, fun _ _ => 0xff⟩

/-- The variables of the kernel after the set-up of the processor, all of them zero. -/
def zeroOwn (k : Machine) : Memory := overwrite lowOwn (fun _ => 0) k.mem

theorem zeroOwn_same (k : Machine) : lowObjects.Same k.mem (zeroOwn k) :=
  TableObjects.same_of_eqOn (frame_apart (eqOn_overwrite lowOwn (fun _ => 0) k.mem) lowObjects.own_tables.symm)

theorem zeroOwn_allocMap (k : Machine) : (load (zeroOwn k) lowPlace.buf).allocMap = fun _ => 0 := by
  have hzero : Set.EqOn (zeroOwn k) (fun _ => 0) (range lowPlace.buf BitmapMemoryManager.size) := fun a ha =>
    if_pos (lowPlace.buf_own ha)
  rw [load_congr hzero]
  rfl

/-- What the clients do with the map of `mixedMap`, from the first call on. -/
theorem mixedMap_clients (k : Machine) {mm : BitmapMemoryManager}
    (hmm : setupMemoryManager mixedMap (fun _ => 0) = some mm) :
    ∃ s, Running.run lowPlace.buf lowPlace.stack ⟨[], mm.store lowPlace.buf (zeroOwn k)⟩
      ([15, 16].map fun n => .call (.allocate n) fun _ => 0xee) = some s ∧ s.live = [⟨128, 16⟩, ⟨1, 15⟩] := by
  obtain ⟨mm', hmm', hup⟩ := mixedMap_valid.setUp fun _ => 0
  obtain rfl : mm = mm' := Option.some.inj (hmm.symm.trans hmm')
  obtain ⟨session, hs, hlive⟩ := mixedMap_run hup
  have hload : load (mm.store lowPlace.buf (zeroOwn k)) lowPlace.buf = mm := load_store ..
  obtain ⟨s, hrun, hlive'⟩ := Running.run_calls (s := ⟨[], mm.store lowPlace.buf (zeroOwn k)⟩) lowPlace.apart
    (fun _ => 0xee) (by rw [hload]; exact hs)
  exact ⟨s, hrun, hlive'.trans hlive⟩

/-- The kernel file, of one segment, at 32 MiB. -/
def lowFile : Memory := fun a => (oneSegmentFile 1 0x100000 1 0xf00000).getD (a - 0x2000000).toNat 0xff

theorem lowFile_phdr : phdr lowFile 0x2000000 0 = ⟨1, 0, 0x100000, 1, 0xf00000⟩ := by decide

theorem lowFile_phnum : phnum lowFile 0x2000000 = 1 := by decide

theorem lowFile_isLoad : IsLoad lowFile 0x2000000 0 := by
  refine ⟨by rw [lowFile_phnum]; simp, ?_⟩
  rw [lowFile_phdr]
  rfl

theorem lowFile_stay : HeadersStay lowFile 0x2000000 := by
  intro i j hij hj
  rw [lowFile_phnum] at hj
  omega

theorem lowFile_shares : SharesFront lowFile 0x2000000 := by
  rintro j hj k hk ⟨i, hi, -⟩
  have hlt := hj.1
  rw [lowFile_phnum] at hlt
  omega

theorem lowFile_covered : Covered lowFile 0x2000000 := by
  refine covered_of_fits (by rw [lowFile_phnum]; simp) fun i hi => ?_
  have hlt := hi.1
  rw [lowFile_phnum] at hlt
  obtain rfl : i = 0 := by omega
  rw [lowFile_phdr]
  decide

theorem lowFile_dest {a : SizeT} (ha : a ∈ bytesOf lowObjects.image) :
    a ∈ dest lowFile 0x2000000 Elf64Phdr.pMemsz 0 := by
  rw [dest, lowFile_phdr]
  exact (mem_range_iff (by simp)).2 (lowImage_bytes.1 ha)

/-- The pages of the loader are from 1 MiB on. -/
theorem lowFile_loader {entry : SizeT} {st : LoadState (SizeT → PageOwner)}
    (h : loadKernel pageFirmware (fun _ => .free) lowFile 0x2000000 = some (entry, st)) {a : SizeT}
    (ha : st.firmware (pageOf a) = .loader) : 0x100000 ≤ a.toNat := by
  rcases asked_of_loadKernel pageFirmware_pages lowFile_stay h ha with hbefore | ⟨i, hi, -, n, hn, hpage⟩
  · cases hbefore
  · rw [lowFile_phnum] at hi
    obtain rfl : i = 0 := by omega
    rw [lowFile_phdr] at hn hpage
    have hcount : (numPages 0xf00000).toNat = 0xf00 := rfl
    rw [hcount] at hn
    have hnat := congrArg BitVec.toNat hpage
    rw [page, BitVec.toNat_add, pageOf_toNat, pageOf_toNat, BitVec.toNat_ofNat] at hnat
    simp only [BitVec.reduceToNat] at hnat
    omega

end MosaOS
