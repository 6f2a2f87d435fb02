import MosaOS.Memory
import MosaOS.Lib.Machine

/-!
# The assembly routines (`kernel/asmfunc.asm`, `kernel/asmfunc.hpp`)

The routines are lists of instructions. What they are for is said by functions on the system registers, one
for each prototype of the header, and on the memory where the processor sets the accessed bits of the segments
that it loads. `AsmFunc.returns_to_caller` connects the two: a call goes back to its caller with
the stack pointer and the registers of the calling convention as they were, and the system registers are
what the function says.
-/

namespace MosaOS
open ByteMem Descriptor X86

/-! ### What the prototypes say -/

/-- `none` where the processor does not take an address or a selector, here and below. -/
def loadGDT (limit : BitVec 16) (offset : SizeT) (sys : System) : Option System := sys.setGdtr ⟨limit, offset⟩

def loadIDT (limit : BitVec 16) (offset : SizeT) (sys : System) : Option System := sys.setIdtr ⟨limit, offset⟩

def setDSAll (value : BitVec 16) (m : Memory) (sys : System) : Option (Memory × System) :=
  if dataLoadable m sys.gdtr value then
    some (markAccessed m sys.gdtr value, (((sys.setSeg .ds value).setSeg .es value).setSeg .fs value).setSeg .gs value)
  else none

def setCSSS (cs ss : BitVec 16) (m : Memory) (sys : System) : Option (Memory × System) :=
  if stackLoadable m sys.gdtr ss then
    let m := markAccessed m sys.gdtr ss
    if codeLoadable m sys.gdtr cs then
      some (markAccessed m sys.gdtr cs, (sys.setSeg .ss ss).setSeg .cs cs)
    else none
  else none

def getCS (sys : System) : BitVec 16 := sys.seg .cs

/-! ### The code -/

/-- `LoadGDT` and `LoadIDT` differ in one instruction. -/
def loadTable (load : Op) : List Op :=
  [.sub .rsp 10, .store 2 .rsp 0 .rdi, .store 8 .rsp 2 .rsi, load]

def loadTableCode (load : Op) : List Instr :=
  (enter ++ loadTable load).map .op ++ (leave.map .op ++ [.ret])

def loadDS : List Op := [.movToSeg .ds .rdi, .movToSeg .es .rdi, .movToSeg .fs .rdi, .movToSeg .gs .rdi]

def setDSAllCode : List Instr := loadDS.map .op ++ [.ret]

def pushCS (next : SizeT) : List Op :=
  [.movToSeg .ss .rsi, .movImm .rax next, .push .rdi, .push .rax]

/-- `next` is the address of the label `.next`, which stands behind the far return. -/
def setCSSSCode (next : SizeT) : List Instr := (enter ++ pushCS next).map .op ++ [.retf]

def setCSSSNext : List Instr := leave.map .op ++ [.ret]

def readCS : List Op := [.xor32 .rax .rax, .movFromSeg .rax .cs]

def getCSCode : List Instr := readCS.map .op ++ [.ret]

inductive AsmFunc
  | loadGDT
  | setDSAll
  | setCSSS
  | loadIDT
  | getCS
deriving DecidableEq, Repr

namespace AsmFunc

/-- The routine stands at `a`. -/
def At (code : Code) (a : SizeT) : AsmFunc → Prop
  | loadGDT => ∃ b, CodeAt code a (loadTableCode (.lgdt .rsp)) b
  | setDSAll => ∃ b, CodeAt code a setDSAllCode b
  | setCSSS => ∃ next b, CodeAt code a (setCSSSCode next) next ∧ CodeAt code next setCSSSNext b
  | loadIDT => ∃ b, CodeAt code a (loadTableCode (.lidt .rsp)) b
  | getCS => ∃ b, CodeAt code a getCSCode b

/-- The memory and the system registers after a call that has its arguments in `rdi` and `rsi`. -/
def meaning (s : State) : AsmFunc → Option (Memory × System)
  | loadGDT => (MosaOS.loadGDT ((s.reg .rdi).setWidth 16) (s.reg .rsi) s.sys).map fun sys => (s.mem, sys)
  | setDSAll => MosaOS.setDSAll ((s.reg .rdi).setWidth 16) s.mem s.sys
  | setCSSS => MosaOS.setCSSS ((s.reg .rdi).setWidth 16) ((s.reg .rsi).setWidth 16) s.mem s.sys
  | loadIDT => (MosaOS.loadIDT ((s.reg .rdi).setWidth 16) (s.reg .rsi) s.sys).map fun sys => (s.mem, sys)
  | getCS => some (s.mem, s.sys)

/-- The routines that load segments: the processor may write to their descriptors. -/
def LoadsSegments : AsmFunc → Prop
  | setDSAll | setCSSS => True
  | _ => False

end AsmFunc

variable {code : Code} {a b next : SizeT} {s t : State} {sys : System}

/-! ### The two tables -/

/-- The stack with the operand of `lgdt` or `lidt` on it, in two pieces. -/
def operandMem (s : State) : Memory :=
  writeNat (writeNat s.mem 2 (s.reg .rsp - 10 + 0) (s.reg .rdi).toNat) 8 (s.reg .rsp - 10 + 2) (s.reg .rsi).toNat

theorem table_operandMem (s : State) : (⟨s.rip, s.reg, s.sys, operandMem s⟩ : State).table (s.reg .rsp - 10) =
    ⟨(s.reg .rdi).setWidth 16, s.reg .rsi⟩ := by
  have hap : Disjoint (range (s.reg .rsp - 10) 2) (range (s.reg .rsp - 10 + 2) 8) := by
    have h : Disjoint (range (s.reg .rsp - 10 + BitVec.ofNat 64 0) 2) (range (s.reg .rsp - 10 + BitVec.ofNat 64 2) 8) :=
      disjoint_range_add (by decide) (by decide)
    rwa [BitVec.add_zero] at h
  have hzero : s.reg .rsp - 10 + 0 = s.reg .rsp - 10 := BitVec.add_zero _
  have hlimit : readNat (operandMem s) 2 (s.reg .rsp - 10) = (s.reg .rdi).toNat % 256 ^ 2 := by
    rw [operandMem, hzero, readNat_writeNat_of_disjoint (by decide) hap, readNat_writeNat (by decide)]
  have hoffset : readNat (operandMem s) 8 (s.reg .rsp - 10 + 2) = (s.reg .rsi).toNat % 256 ^ 8 := by
    rw [operandMem, readNat_writeNat (by decide)]
  have hlimit16 : BitVec.ofNat 16 ((s.reg .rdi).toNat % 256 ^ 2) = (s.reg .rdi).setWidth 16 :=
    BitVec.eq_of_toNat_eq (by rw [BitVec.toNat_ofNat, BitVec.toNat_setWidth]; exact Nat.mod_mod _ _)
  have hoffset64 : BitVec.ofNat 64 ((s.reg .rsi).toNat % 256 ^ 8) = s.reg .rsi :=
    BitVec.eq_of_toNat_eq (by
      rw [BitVec.toNat_ofNat]
      exact (Nat.mod_mod _ _).trans (Nat.mod_eq_of_lt (s.reg .rsi).isLt))
  unfold State.table
  rw [hlimit, hoffset, hlimit16, hoffset64]

theorem operandMem_frame (s : State) : Set.EqOn (operandMem s) s.mem (range (s.reg .rsp - 10) 10)ᶜ := by
  intro x hx
  have hhigh : range (s.reg .rsp - 10 + BitVec.ofNat 64 2) 8 ⊆ range (s.reg .rsp - 10) 10 :=
    range_add_subset (by decide) (by decide)
  have hlow : range (s.reg .rsp - 10 + BitVec.ofNat 64 0) 2 ⊆ range (s.reg .rsp - 10) 10 :=
    range_add_subset (by decide) (by decide)
  exact (writeNat_of_notMem fun h => hx (hhigh h)).trans (writeNat_of_notMem fun h => hx (hlow h))

/-- What both routines do between the two ends of the frame. -/
theorem loadTable_effect {load : Op} {f : System → TableRegister 64 → Option System}
    (hload : ∀ s : State, load.effect s = (f s.sys (s.table (s.reg .rsp))).map fun sys => { s with sys }) (s : State)
    (h : f s.sys ⟨(s.reg .rdi).setWidth 16, s.reg .rsi⟩ = some sys) :
    ∃ t, (loadTable load).foldlM Op.effect s = some t ∧ (∀ r ≠ .rsp, t.reg r = s.reg r) ∧
      t.mem = operandMem s ∧ t.sys = sys := by
  let u : State := { s.set .rsp (s.reg .rsp - 10) with mem := operandMem s }
  have htable : u.table (u.reg .rsp) = ⟨(s.reg .rdi).setWidth 16, s.reg .rsi⟩ := table_operandMem s
  have hstep : load.effect u = some { u with sys } := by
    have hsys : f u.sys (u.table (u.reg .rsp)) = some sys := htable.symm ▸ h
    rw [hload, hsys]
    rfl
  have hrun : (loadTable load).foldlM Op.effect s = (load.effect u).bind some := rfl
  rw [hstep] at hrun
  exact ⟨_, hrun, fun r hr => State.set_of_ne hr .., rfl, rfl⟩

theorem ne_rsp_of_mem_calleeSaved {r : Reg} (hr : r ∈ calleeSaved) : r ≠ .rsp := by
  rintro rfl
  simp [calleeSaved] at hr

theorem loadTable_returns {load : Op} {f : System → TableRegister 64 → Option System}
    (hload : ∀ s : State, load.effect s = (f s.sys (s.table (s.reg .rsp))).map fun sys => { s with sys })
    (hcode : CodeAt code a (loadTableCode load) b) (hrip : s.rip = a)
    (h : f s.sys ⟨(s.reg .rdi).setWidth 16, s.reg .rsi⟩ = some sys) :
    ∃ t, Reaches code s t ∧ Returned 18 s.mem s t ∧ t.sys = sys := by
  obtain ⟨mid, hbody, hleave⟩ := codeAt_append.1 hcode
  have hargs : f s.entered.sys ⟨(s.entered.reg .rdi).setWidth 16, s.entered.reg .rsi⟩ = some sys := by
    rw [State.entered_of_ne (by simp) (by simp), State.entered_of_ne (by simp) (by simp)]
    exact h
  obtain ⟨t, ht, hreg, hmem, hsys⟩ := loadTable_effect hload s.entered hargs
  have heffect : (enter ++ loadTable load).foldlM Op.effect s = some t := by
    rw [List.foldlM_append, enter_effect]
    exact ht
  have hbelow : s.entered.reg .rsp - 10 = s.reg .rsp - BitVec.ofNat 64 (8 + 10) := by
    rw [State.entered_rsp]
    exact BitVec.sub_sub _ _ _
  have hframe := operandMem_frame s.entered
  rw [hbelow, ← hmem] at hframe
  obtain ⟨hkeep, hmem⟩ := State.eqOn_entered (by simp) hframe
  obtain ⟨u, hu, hret, husys, -⟩ := Reaches.leave (t := { t with rip := mid }) hleave rfl
    (fun r hr => hreg r (ne_rsp_of_mem_calleeSaved hr)) hkeep hmem
  exact ⟨u, (Reaches.ops hbody hrip heffect).trans hu, hret, husys.trans hsys⟩

/-! ### The selectors -/

variable {m : Memory} {bytes : Set SizeT}

/-- The descriptor table is apart from the words that a routine finds or puts on the stack. -/
def TableApart (s : State) : Prop :=
  Disjoint (range s.sys.gdtr.base (s.sys.gdtr.limit.toNat + 1)) (range (s.reg .rsp - BitVec.ofNat 64 24) 32)

theorem TableApart.returnAddress (h : TableApart s) :
    Disjoint (range s.sys.gdtr.base (s.sys.gdtr.limit.toNat + 1)) (range (s.reg .rsp) 8) := by
  have hsub : range (s.reg .rsp - BitVec.ofNat 64 0) 8 ⊆ range (s.reg .rsp - BitVec.ofNat 64 24) 32 :=
    range_sub_subset (by decide) (by decide) (by decide)
  rw [BitVec.sub_zero] at hsub
  exact h.mono_right hsub

/-- The four loads set the same bit. -/
theorem loadDS_effect (h : setDSAll ((s.reg .rdi).setWidth 16) s.mem s.sys = some (m, sys)) :
    loadDS.foldlM Op.effect s = some { s with sys, mem := m } := by
  unfold setDSAll at h
  split at h
  · rename_i hload
    cases h
    have hagain := dataLoadable_markAccessed hload
    simp [loadDS, Op.effect, System.loadable, System.setSeg, hload, hagain, markAccessed_twice]
  · cases h

theorem setDSAll_frame (h : setDSAll ((s.reg .rdi).setWidth 16) s.mem s.sys = some (m, sys)) :
    Set.EqOn m s.mem (range s.sys.gdtr.base (s.sys.gdtr.limit.toNat + 1))ᶜ := by
  unfold setDSAll at h
  split at h
  · rename_i hload
    cases h
    exact eqOn_markAccessed _ (inTable_of_dataLoadable hload)
  · cases h

theorem setDSAll_returns (hcode : CodeAt code a setDSAllCode b) (hrip : s.rip = a) (hap : TableApart s)
    (h : setDSAll ((s.reg .rdi).setWidth 16) s.mem s.sys = some (m, sys)) :
    ∃ t, Reaches code s t ∧ Returned 0 m s t ∧ t.sys = sys := by
  have hkeep : Set.EqOn m s.mem (range (s.reg .rsp) 8) :=
    frame_apart (setDSAll_frame h) hap.returnAddress.symm
  obtain ⟨t, ht, hret, hsys, -⟩ := Reaches.ret hcode hrip (loadDS_effect h) (fun _ _ => rfl) hkeep
  exact ⟨t, ht, hret, hsys⟩

/-- The state of `SetCSSS` when both words of the far return are on the stack. -/
def beforeRetf (s : State) (next : SizeT) : State :=
  let ss := (s.reg .rsi).setWidth 16
  let s := { s with sys := s.sys.setSeg .ss ss, mem := markAccessed s.mem s.sys.gdtr ss }
  ((s.set .rax next).pushed (s.reg .rdi)).pushed next

theorem pushCS_effect (h : stackLoadable s.mem s.sys.gdtr ((s.reg .rsi).setWidth 16)) :
    (pushCS next).foldlM Op.effect s = some (beforeRetf s next) := by
  have hss : s.sys.loadable s.mem .ss ((s.reg .rsi).setWidth 16) = true := h
  simp only [pushCS, List.foldlM_cons, Op.effect, hss]
  rfl

theorem beforeRetf_of_ne {r : Reg} (hsp : r ≠ .rsp) (hax : r ≠ .rax) (s : State) (next : SizeT) :
    (beforeRetf s next).reg r = s.reg r := by
  simp [beforeRetf, State.pushed_of_ne, State.set_of_ne, hsp, hax]

/-- The selector that the far return takes from the stack. -/
theorem beforeRetf_selector (s : State) (next : SizeT) :
    BitVec.ofNat 16 (readNat (beforeRetf s next).mem 8 ((beforeRetf s next).reg .rsp + 8)) =
      (s.reg .rdi).setWidth 16 := by
  obtain ⟨u, hu, hrdi⟩ : ∃ u : State, beforeRetf s next = u.pushed next ∧ u.top = s.reg .rdi :=
    ⟨_, rfl, State.top_pushed ..⟩
  have hsp : u.reg .rsp - 8 + 8 = u.reg .rsp := BitVec.sub_add_cancel _ _
  rw [hu, State.pushed_rsp, hsp, State.readNat_pushed, ← hrdi]
  refine BitVec.eq_of_toNat_eq ?_
  rw [BitVec.toNat_setWidth, State.top, BitVec.toNat_ofNat, BitVec.toNat_ofNat]
  exact (Nat.mod_mod_of_dvd _ (by decide)).symm

theorem beforeRetf_frame (s : State) (next : SizeT) :
    Set.EqOn (beforeRetf s next).mem (markAccessed s.mem s.sys.gdtr ((s.reg .rsi).setWidth 16))
      (range (s.reg .rsp - BitVec.ofNat 64 16) 16)ᶜ := by
  intro x hx
  obtain ⟨u, hu, hrsp, hmem⟩ : ∃ u : State, beforeRetf s next = (u.pushed (s.reg .rdi)).pushed next ∧
      u.reg .rsp = s.reg .rsp ∧ u.mem = markAccessed s.mem s.sys.gdtr ((s.reg .rsi).setWidth 16) := by
    refine ⟨_, rfl, ?_, rfl⟩
    simp [State.set_of_ne]
  have hsp : (u.pushed (s.reg .rdi)).reg .rsp - BitVec.ofNat 64 8 = s.reg .rsp - BitVec.ofNat 64 16 := by
    rw [State.pushed_rsp, hrsp]
    exact BitVec.sub_sub _ _ _
  have hfirst := u.eqOn_pushed (s.reg .rdi)
  have hsecond := (u.pushed (s.reg .rdi)).eqOn_pushed next
  rw [hrsp, hmem] at hfirst
  rw [hsp] at hsecond
  have hlow : range (s.reg .rsp - BitVec.ofNat 64 16) 8 ⊆ range (s.reg .rsp - BitVec.ofNat 64 16) 16 :=
    range_mono (by decide)
  have hhigh : range (s.reg .rsp - BitVec.ofNat 64 8) 8 ⊆ range (s.reg .rsp - BitVec.ofNat 64 16) 16 :=
    range_sub_subset (by decide) (by decide) (by decide)
  rw [hu, hsecond fun h => hx (hlow h), hfirst fun h => hx (hhigh h)]

theorem retf_exec {selector : BitVec 16} (hread : BitVec.ofNat 16 (readNat s.mem 8 (s.reg .rsp + 8)) = selector)
    (h : codeLoadable s.mem s.sys.gdtr selector) :
    Instr.exec next s .retf = some { s.set .rsp (s.reg .rsp + 16) with
      rip := s.top, sys := s.sys.setSeg .cs selector, mem := markAccessed s.mem s.sys.gdtr selector } := by
  simp only [Instr.exec, hread]
  exact if_pos h

theorem retf_beforeRetf {rip after : SizeT}
    (h : codeLoadable (beforeRetf s next).mem s.sys.gdtr ((s.reg .rdi).setWidth 16)) :
    ∃ t, Instr.exec after { beforeRetf s next with rip } .retf = some t ∧ t.rip = next ∧
      t.mem = markAccessed (beforeRetf s next).mem s.sys.gdtr ((s.reg .rdi).setWidth 16) ∧
      (∀ r ∈ calleeSaved, t.reg r = s.reg r) ∧
      t.sys = (s.sys.setSeg .ss ((s.reg .rsi).setWidth 16)).setSeg .cs ((s.reg .rdi).setWidth 16) := by
  have hread := beforeRetf_selector s next
  have hrip : (beforeRetf s next).top = next := State.top_pushed ..
  have hreg := fun r hsp hax => beforeRetf_of_ne (r := r) hsp hax s next
  have hsys : (beforeRetf s next).sys = s.sys.setSeg .ss ((s.reg .rsi).setWidth 16) := rfl
  generalize beforeRetf s next = u at *
  have hgdtr : u.sys.gdtr = s.sys.gdtr := by
    rw [hsys]
    rfl
  refine ⟨_, retf_exec hread (hgdtr ▸ h), hrip, ?_, fun r hr => ?_, hsys ▸ rfl⟩
  · rw [← hgdtr]
  · have hsp : r ≠ .rsp := ne_rsp_of_mem_calleeSaved hr
    have hax : r ≠ .rax := by
      rintro rfl
      simp [calleeSaved] at hr
    show Function.update u.reg .rsp _ r = s.reg r
    rw [Function.update_of_ne hsp, hreg r hsp hax]

/-- A segment is the same as before bytes apart from the table were written. -/
theorem segmentAt_of_frame {m m' : Memory} {gdtr : TableRegister 64} (hmem : Set.EqOn m' m bytesᶜ)
    (hap : Disjoint (range gdtr.base (gdtr.limit.toNat + 1)) bytes) : segmentAt m' gdtr = segmentAt m gdtr :=
  funext fun selector => segmentAt_congr (fun _ hx => hmem (Set.disjoint_left.1 hap hx)) selector

/-- The accessed bits are set as if nothing had been pushed. -/
theorem setCSSS_words {cs ss : BitVec 16} (hap : TableApart s)
    (hss : stackLoadable s.mem s.sys.gdtr ss)
    (hcs : codeLoadable (markAccessed s.mem s.sys.gdtr ss) s.sys.gdtr cs) {m₁ m₂ : Memory}
    (h₁ : Set.EqOn m₁ s.mem (range (s.reg .rsp - BitVec.ofNat 64 24) 24)ᶜ)
    (h₂ : Set.EqOn m₂ (markAccessed m₁ s.sys.gdtr ss) (range (s.reg .rsp - BitVec.ofNat 64 24) 24)ᶜ) :
    stackLoadable m₁ s.sys.gdtr ss ∧ codeLoadable m₂ s.sys.gdtr cs ∧
      Set.EqOn (markAccessed m₂ s.sys.gdtr cs) (markAccessed (markAccessed s.mem s.sys.gdtr ss) s.sys.gdtr cs)
        (range (s.reg .rsp - BitVec.ofNat 64 24) 24)ᶜ := by
  have hwords : Disjoint (range s.sys.gdtr.base (s.sys.gdtr.limit.toNat + 1))
      (range (s.reg .rsp - BitVec.ofNat 64 24) 24) := hap.mono_right (range_mono (by decide))
  have hsub := Set.subset_compl_iff_disjoint_right.2 hwords
  have hmark := h₂.trans (markAccessed_congr h₁ hsub (inTable_of_stackLoadable hss))
  refine ⟨?_, ?_, markAccessed_congr hmark hsub (inTable_of_codeLoadable hcs)⟩
  · rw [stackLoadable, segmentAt_of_frame h₁ hwords]
    exact hss
  · rw [codeLoadable, segmentAt_of_frame hmark hwords]
    exact hcs

theorem setCSSS_returns (hcode : CodeAt code a (setCSSSCode next) next) (hnext : CodeAt code next setCSSSNext b)
    (hrip : s.rip = a) (hap : TableApart s)
    (h : setCSSS ((s.reg .rdi).setWidth 16) ((s.reg .rsi).setWidth 16) s.mem s.sys = some (m, sys)) :
    ∃ t, Reaches code s t ∧ Returned 24 m s t ∧ t.sys = sys := by
  simp only [setCSSS] at h
  split at h
  swap
  · cases h
  rename_i hss
  split at h
  swap
  · cases h
  rename_i hcs
  cases h
  have hdi : s.entered.reg .rdi = s.reg .rdi := State.entered_of_ne (by simp) (by simp)
  have hsi : s.entered.reg .rsi = s.reg .rsi := State.entered_of_ne (by simp) (by simp)
  have hbelow : s.entered.reg .rsp - BitVec.ofNat 64 16 = s.reg .rsp - BitVec.ofNat 64 (8 + 16) := by
    rw [State.entered_rsp]
    exact BitVec.sub_sub _ _ _
  -- what has been pushed when the stack segment is loaded, and when the code segment is
  have hpushed : Set.EqOn s.entered.mem s.mem (range (s.reg .rsp - BitVec.ofNat 64 24) 24)ᶜ :=
    (s.eqOn_pushed (s.reg .rbp)).mono
      (Set.compl_subset_compl.2 (range_sub_subset (by decide) (by decide) (by decide)))
  have hframe := beforeRetf_frame s.entered next
  rw [hbelow, hsi] at hframe
  have hwords := hframe.mono (Set.compl_subset_compl.2 (range_mono (show 16 ≤ 24 by decide)))
  obtain ⟨hssEntered, hcsWords, hmem⟩ := setCSSS_words hap hss hcs hpushed hwords
  rw [← hsi] at hssEntered
  rw [← hdi] at hcsWords
  have heffect : (enter ++ pushCS next).foldlM Op.effect s = some (beforeRetf s.entered next) := by
    rw [List.foldlM_append, enter_effect]
    exact pushCS_effect hssEntered
  obtain ⟨mid, after, -, hretf⟩ := Reaches.ops_then hcode hrip heffect
  obtain ⟨t, ht, htrip, htmem, hsaved, hsys⟩ := retf_beforeRetf hcsWords
  have htmem : t.mem = markAccessed (beforeRetf s.entered next).mem s.sys.gdtr ((s.reg .rdi).setWidth 16) := hdi ▸ htmem
  -- neither bit is set in the saved `rbp` or the return address
  have hkeep : Set.EqOn t.mem s.entered.mem (range (s.reg .rsp - BitVec.ofNat 64 8) 16) := by
    have hslot : range (s.reg .rsp - BitVec.ofNat 64 8) 16 ⊆ range (s.reg .rsp - BitVec.ofNat 64 24) 32 :=
      range_sub_subset (by decide) (by decide) (by decide)
    have htable : Disjoint (range (s.reg .rsp - BitVec.ofNat 64 8) 16)
        (range s.sys.gdtr.base (s.sys.gdtr.limit.toNat + 1)) := (hap.mono_right hslot).symm
    have hpushes : Disjoint (range (s.reg .rsp - BitVec.ofNat 64 8) 16)
        (range (s.reg .rsp - BitVec.ofNat 64 (8 + 16)) 16) := (disjoint_range_sub (by decide) (by decide)).symm
    have hmark := frame_apart (eqOn_markAccessed s.entered.mem (inTable_of_stackLoadable hss)) htable
    rw [htmem]
    exact (frame_apart (eqOn_markAccessed _ (inTable_of_codeLoadable hcs)) htable).trans
      ((frame_apart hframe hpushes).trans hmark)
  rw [← htmem] at hmem
  obtain ⟨u, hu, hret, husys, -⟩ := Reaches.leave hnext htrip hsaved hkeep hmem
  rw [hsi, hdi] at hsys
  exact ⟨u, (hretf t ht).trans hu, hret, husys.trans hsys⟩

/-! ### `GetCS` -/

/-- The upper part of `rax` is cleared before. -/
theorem readCS_effect (s : State) : readCS.foldlM Op.effect s =
    some ((s.set .rax 0).set .rax ((getCS s.sys).setWidth 64)) := by
  have hzero : ((s.reg .rax).setWidth 32 ^^^ (s.reg .rax).setWidth 32).setWidth 64 = 0#64 := by
    rw [BitVec.xor_self, BitVec.setWidth_zero]
  have hcs : (0#64).extractLsb' 16 48 ++ getCS s.sys = (getCS s.sys).setWidth 64 := by
    refine BitVec.eq_of_toNat_eq ?_
    rw [BitVec.toNat_append, BitVec.toNat_setWidth]
    simp
    omega
  have hrun : readCS.foldlM Op.effect s =
      some ((s.set .rax (((s.reg .rax).setWidth 32 ^^^ (s.reg .rax).setWidth 32).setWidth 64)).set .rax
        (((s.set .rax (((s.reg .rax).setWidth 32 ^^^ (s.reg .rax).setWidth 32).setWidth 64)).reg .rax).extractLsb' 16 48 ++
          getCS s.sys)) := rfl
  rw [hrun, hzero, State.set_self, hcs]
  rfl

theorem getCS_returns (hcode : CodeAt code a getCSCode b) (hrip : s.rip = a) :
    ∃ t, Reaches code s t ∧ Returned 0 s.mem s t ∧ t.sys = s.sys ∧ t.reg .rax = (getCS s.sys).setWidth 64 := by
  have hreg : ∀ r ∈ Reg.rsp :: calleeSaved, ((s.set .rax 0).set .rax ((getCS s.sys).setWidth 64)).reg r = s.reg r := by
    intro r hr
    have hax : r ≠ .rax := by
      rintro rfl
      simp [calleeSaved] at hr
    simp [State.set_of_ne, hax]
  obtain ⟨u, hu, hret, hsys, hax⟩ := Reaches.ret hcode hrip (readCS_effect s) hreg fun _ _ => rfl
  exact ⟨u, hu, hret, hsys, hax.trans (State.set_self ..)⟩

/-! ### Calls of the routines -/

/-- A routine that stands somewhere in the code goes back to its caller where the processor takes what it is
given; the system registers and the accessed bits are then what its prototype says, and nothing else of the
caller's has changed. -/
theorem AsmFunc.returns_to_caller (f : AsmFunc) (hcode : f.At code a) (hrip : s.rip = a)
    (hap : f.LoadsSegments → TableApart s) (h : f.meaning s = some (m, sys)) :
    ∃ t, Reaches code s t ∧ Returned 24 m s t ∧ t.sys = sys ∧
      (f = .getCS → t.reg .rax = (MosaOS.getCS s.sys).setWidth 64) := by
  cases f with
  | loadGDT =>
    obtain ⟨b, hb⟩ := hcode
    obtain ⟨sys, hsys, heq⟩ := Option.map_eq_some_iff.1 h
    cases heq
    have hload : ∀ u : State, (Op.lgdt .rsp).effect u =
        (System.setGdtr u.sys (u.table (u.reg .rsp))).map fun sys => { u with sys } := fun _ => rfl
    obtain ⟨t, ht, hret, hsys⟩ := loadTable_returns hload hb hrip hsys
    exact ⟨t, ht, hret.mono (by decide) (by decide), hsys, by simp⟩
  | setDSAll =>
    obtain ⟨b, hb⟩ := hcode
    obtain ⟨t, ht, hret, hsys⟩ := setDSAll_returns hb hrip (hap trivial) h
    exact ⟨t, ht, hret.mono (by decide) (by decide), hsys, by simp⟩
  | setCSSS =>
    obtain ⟨next, b, hb, hnext⟩ := hcode
    obtain ⟨t, ht, hret, hsys⟩ := setCSSS_returns hb hnext hrip (hap trivial) h
    exact ⟨t, ht, hret, hsys, by simp⟩
  | loadIDT =>
    obtain ⟨b, hb⟩ := hcode
    obtain ⟨sys, hsys, heq⟩ := Option.map_eq_some_iff.1 h
    cases heq
    have hload : ∀ u : State, (Op.lidt .rsp).effect u =
        (System.setIdtr u.sys (u.table (u.reg .rsp))).map fun sys => { u with sys } := fun _ => rfl
    obtain ⟨t, ht, hret, hsys⟩ := loadTable_returns hload hb hrip hsys
    exact ⟨t, ht, hret.mono (by decide) (by decide), hsys, by simp⟩
  | getCS =>
    cases h
    obtain ⟨b, hb⟩ := hcode
    obtain ⟨t, ht, hret, hsys, hax⟩ := getCS_returns hb hrip
    exact ⟨t, ht, hret.mono (by decide) (by decide), hsys, fun _ => hax⟩

/-! ### `SetCSSS` at some address -/

def setCSSSAt : Code := fun a =>
  if a = 0x100000 then some (.op (.push .rbp), 1)
  else if a = 0x100001 then some (.op (.mov .rbp .rsp), 3)
  else if a = 0x100004 then some (.op (.movToSeg .ss .rsi), 2)
  else if a = 0x100006 then some (.op (.movImm .rax 0x100014), 10)
  else if a = 0x100010 then some (.op (.push .rdi), 1)
  else if a = 0x100011 then some (.op (.push .rax), 1)
  else if a = 0x100012 then some (.retf, 2)
  else if a = 0x100014 then some (.op (.mov .rsp .rbp), 3)
  else if a = 0x100017 then some (.op (.pop .rbp), 1)
  else if a = 0x100018 then some (.ret, 1)
  else none

/-- A table with a segment of code and one of data at `0x1000`, the stack pointer at `0x8000`. -/
def setCSSSCall : State where
  rip := 0x100000
  reg r := if r = .rdi then 8 else if r = .rsi then 16 else if r = .rsp then 0x8000 else 0
  sys := ⟨fun _ => 0x38, ⟨23, 0x1000⟩, ⟨0, 0⟩, 0⟩
  mem := writeNat (writeNat (fun _ => 0) 8 0x1008 0x00af9a000000ffff) 8 0x1010 0x00cf92000000ffff

/-- The types of the two descriptors become 11 and 3. -/
theorem setCSSSAt_returns : ∃ t m, Reaches setCSSSAt setCSSSCall t ∧ Returned 24 m setCSSSCall t ∧
    t.sys = (setCSSSCall.sys.setSeg .ss 16).setSeg .cs 8 ∧ m 0x100d = 0x9b ∧ m 0x1015 = 0x93 ∧
    (AsmFunc.setCSSS = .getCS → t.reg .rax = (getCS setCSSSCall.sys).setWidth 64) := by
  have hap : TableApart setCSSSCall := by
    have hap : Disjoint (range ((0x1000 : SizeT) + BitVec.ofNat 64 0) 24)
        (range ((0x1000 : SizeT) + BitVec.ofNat 64 0x6fe8) 32) := disjoint_range_add (by decide) (by decide)
    exact hap
  have hmeaning : AsmFunc.setCSSS.meaning setCSSSCall =
      some (markAccessed (markAccessed setCSSSCall.mem setCSSSCall.sys.gdtr 16) setCSSSCall.sys.gdtr 8,
        (setCSSSCall.sys.setSeg .ss 16).setSeg .cs 8) := rfl
  have hcode : AsmFunc.setCSSS.At setCSSSAt 0x100000 :=
    ⟨0x100014, 0x100019, ⟨1, rfl, 3, rfl, 2, rfl, 10, rfl, 1, rfl, 1, rfl, 2, rfl, rfl⟩, ⟨3, rfl, 1, rfl, 1, rfl, rfl⟩⟩
  obtain ⟨t, ht, hret, hsys, hax⟩ := AsmFunc.returns_to_caller .setCSSS hcode rfl (fun _ => hap) hmeaning
  exact ⟨t, _, ht, hret, hsys, by decide, by decide, hax⟩

end MosaOS
