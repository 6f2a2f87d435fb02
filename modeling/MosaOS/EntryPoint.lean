import MosaOS.AsmFunc
import MosaOS.Lib.MachineCode

/-!
# The way into the kernel (`boot/kernel_jump.S`, `kernel/asmfunc.asm`)

`UefiMain` calls `jump_to_kernel` with the address of `bootinfo` and the entry of the kernel,
`entry_point` takes the kernel's own stack and calls `KernelMain`. `entry_point_calls_kernelMain` says what
`KernelMain` finds, and that the processor stays in the loop behind the call should it ever return.
-/

namespace MosaOS
open ByteMem X86

def jumpToKernelCode : List Instr := [.jmpReg .rsi]

def kernelMainStackBytes : SizeT := 1024 * 1024

/-- `entry_point` up to its label `.fin`. -/
def entryPointCode (kernel_main_stack kernelMain : SizeT) : List Instr :=
  [.op (.movImm .rsp (kernel_main_stack + kernelMainStackBytes)), .call kernelMain]

def finCode (fin : SizeT) : List Instr := [.op .hlt, .jmp fin]

/-- `entry_point` as it is assembled for the address `entry`: the call and the jump are relative. -/
def entryPointBytes (kernel_main_stack kernelMain entry : SizeT) : List (BitVec 8) :=
  [0x48, 0xbc] ++ leBytes 8 (kernel_main_stack + kernelMainStackBytes).toNat ++
    ([0xe8] ++ leBytes 4 ((kernelMain - (entry + 15)).setWidth 32).toNat ++ [0xf4, 0xeb, 0xfd])

/-- What `KernelMain` is called with, in terms of the state `s` before `jump_to_kernel`. -/
structure KernelEntry (kernel_main_stack kernelMain fin : SizeT) (s t : State) : Prop where
  rip : t.rip = kernelMain
  reg : ∀ r ≠ .rsp, t.reg r = s.reg r
  sys : t.sys = s.sys
  returnAddress : t.top = fin
  rsp : t.reg .rsp + 8 = kernel_main_stack + kernelMainStackBytes
  stack : range (t.reg .rsp) 8 ⊆ range kernel_main_stack kernelMainStackBytes.toNat
  mem : Set.EqOn t.mem s.mem (range (t.reg .rsp) 8)ᶜ

variable {code : Code} {a b c fin stack kernelMain : SizeT} {s t : State}

/-- The return address is in the last eight bytes of the stack. -/
theorem lastWord_subset : range (stack + kernelMainStackBytes - BitVec.ofNat 64 8) 8 ⊆
    range stack kernelMainStackBytes.toNat := by
  have hlast : stack + kernelMainStackBytes - BitVec.ofNat 64 8 =
      stack + BitVec.ofNat 64 (kernelMainStackBytes.toNat - 8) := by
    rw [BitVec.sub_eq_add_neg, BitVec.add_assoc]
    rfl
  rw [hlast]
  exact range_add_subset (by decide) (by decide)

theorem entry_reaches (hjump : CodeAt code a jumpToKernelCode b) (hrip : s.rip = a)
    (hentry : CodeAt code (s.reg .rsi) (entryPointCode stack kernelMain) fin) :
    ∃ t, Reaches code s t ∧ KernelEntry stack kernelMain fin s t := by
  obtain ⟨next, -, hjmp⟩ := hjump.step hrip
  have hfirst : Reaches code s { s with rip := s.reg .rsi } := .of_step hjmp
  have hcode : CodeAt code (s.reg .rsi)
    ([Op.movImm .rsp (stack + kernelMainStackBytes)].map .op ++ [.call kernelMain]) fin := hentry
  obtain ⟨mid, after, hafter, hcall⟩ := Reaches.ops_then (s := { s with rip := s.reg .rsi }) hcode rfl rfl
  obtain rfl : after = fin := hafter
  let u := ({ s with rip := mid }.set .rsp (stack + kernelMainStackBytes))
  have hrsp : (u.pushed after).reg .rsp = stack + kernelMainStackBytes - 8 := by
    rw [State.pushed_rsp, State.set_self]
  refine ⟨_, hfirst.trans (hcall { u.pushed after with rip := kernelMain } rfl), ?_⟩
  constructor
  · rfl
  · intro r hr
    exact (State.pushed_of_ne hr u after).trans (State.set_of_ne hr ..)
  · rfl
  · exact u.top_pushed after
  · show (u.pushed after).reg .rsp + 8 = _
    rw [hrsp, BitVec.sub_add_cancel]
  · show range ((u.pushed after).reg .rsp) 8 ⊆ _
    rw [hrsp]
    exact lastWord_subset
  · show Set.EqOn (u.pushed after).mem s.mem (range ((u.pushed after).reg .rsp) 8)ᶜ
    have hmem := u.eqOn_pushed after
    rw [State.set_self] at hmem
    rw [hrsp]
    exact hmem

theorem codeAt_entryPoint {m : Memory} {entry stack kernelMain : SizeT}
    (hnear : ((kernelMain - (entry + 15)).setWidth 32).signExtend 64 = kernelMain - (entry + 15))
    (h : BytesAt m entry (entryPointBytes stack kernelMain entry)) :
    CodeAt (decode m) entry (entryPointCode stack kernelMain) (entry + 15) := by
  obtain ⟨hmov, hcall⟩ := h.append
  obtain ⟨hmovOp, hword⟩ := hmov.append
  obtain ⟨hcallOp, -⟩ := hcall.append
  obtain ⟨hcallOp, hrel⟩ := hcallOp.append
  have hfirst : m entry = 0x48 := by simpa using hmovOp 0 (by simp)
  have hsecond : m (entry + 1) = 0xbc := by simpa using hmovOp 1 (by simp)
  have hstack : BitVec.ofNat 64 (readNat m 8 (entry + 2)) = stack + kernelMainStackBytes := ofNat_readNat rfl hword
  have hopcode : m (entry + 10) = 0xe8 := by simpa using hcallOp 0 (by simp)
  have hrel : BitVec.ofNat 32 (readNat m 4 (entry + 10 + 1)) = (kernelMain - (entry + 15)).setWidth 32 :=
    ofNat_readNat rfl (by simpa using hrel)
  refine ⟨10, ?_, 5, ?_, ?_⟩
  · rw [decode_movImm hfirst (by rw [hsecond]; rfl), hsecond, hstack]
    rfl
  · show decode m (entry + 10) = _
    have htarget : entry + 10 + 5 + (kernelMain - (entry + 15)) = kernelMain := by
      rw [BitVec.add_assoc entry]
      exact BitVec.add_comm _ _ |>.trans (BitVec.sub_add_cancel _ _)
    rw [decode_call hopcode, hrel, hnear, htarget]
  · show entry + 10 + 5 = entry + 15
    rw [BitVec.add_assoc]
    rfl

/-- The way from the loader's jump into `KernelMain`, from the bytes in memory. -/
theorem decoded_entry_reaches {s : State} {stack kernelMain : SizeT}
    (hjump : BytesAt s.mem s.rip [0xff, 0xe6])
    (hnear : ((kernelMain - (s.reg .rsi + 15)).setWidth 32).signExtend 64 = kernelMain - (s.reg .rsi + 15))
    (hentry : BytesAt s.mem (s.reg .rsi) (entryPointBytes stack kernelMain (s.reg .rsi))) :
    ∃ t, Reaches (decode s.mem) s t ∧ KernelEntry stack kernelMain (s.reg .rsi + 15) s t := by
  have hfirst : s.mem s.rip = 0xff := by simpa using hjump 0 (by simp)
  have hsecond : s.mem (s.rip + 1) = 0xe6 := hjump 1 (by simp)
  have hcode : CodeAt (decode s.mem) s.rip jumpToKernelCode (s.rip + 2) := by
    refine ⟨2, ?_, rfl⟩
    rw [decode_jmpReg hfirst (by rw [hsecond]; rfl), hsecond]
    rfl
  exact entry_reaches hcode rfl (codeAt_entryPoint hnear hentry)

/-! ### The loop behind the call -/

/-- The address is the one of an instruction of the loop. -/
def InLoop (code : Code) (fin a : SizeT) : Prop :=
  a = fin ∨ ∃ len, code fin = some (.op .hlt, len) ∧ a = fin + BitVec.ofNat 64 len

/-- The processor waits at `.fin`, or goes back there. -/
structure Waiting (code : Code) (fin : SizeT) (s t : State) : Prop where
  next : InLoop code fin t.rip
  reg : t.reg = s.reg
  sys : t.sys = s.sys
  mem : t.mem = s.mem

theorem Waiting.step (hfin : CodeAt code fin (finCode fin) b) (h : Waiting code fin s t) :
    ∃ u, X86.step code t = some u ∧ Waiting code fin s u := by
  obtain ⟨len, hhlt, len', hjmp, -⟩ := hfin
  rcases h.next with hrip | ⟨n, hn, hrip⟩
  · refine ⟨{ t with rip := fin + BitVec.ofNat 64 len }, ?_, Or.inr ⟨len, hhlt, rfl⟩, h.reg, h.sys, h.mem⟩
    simp [X86.step, hrip, hhlt, Instr.exec, Op.effect]
  · obtain ⟨-, rfl⟩ := Prod.mk.inj (Option.some.inj (hhlt.symm.trans hn))
    refine ⟨{ t with rip := fin }, ?_, Or.inl rfl, h.reg, h.sys, h.mem⟩
    simp [X86.step, hrip, hjmp, Instr.exec]

theorem Waiting.run (hfin : CodeAt code fin (finCode fin) b) (hrip : s.rip = fin) (h : Reaches code s t) :
    Waiting code fin s t := by
  induction h with
  | refl => exact ⟨Or.inl hrip, rfl, rfl, rfl⟩
  | tail _ hstep ih =>
    obtain ⟨u, hu, hwaiting⟩ := ih.step hfin
    obtain rfl := Option.some.inj (hstep.symm.trans hu)
    exact hwaiting

theorem KernelEntry.aligned (h : KernelEntry stack kernelMain fin s t) (halign : 16 ∣ stack.toNat) :
    16 ∣ (t.reg .rsp + 8).toNat := by
  have hbytes : kernelMainStackBytes.toNat = 2 ^ 20 := rfl
  rw [h.rsp, BitVec.toNat_add, hbytes]
  omega

/-- `KernelMain` is called with the registers that `jump_to_kernel` was called with, its argument among them,
on the whole of the kernel's own stack, and of the memory only the word of the return address has changed.
Where the array is aligned, the stack pointer is where the calling convention wants it. Should `KernelMain`
ever return, the processor stays in the loop for good and changes nothing more. -/
theorem entry_point_calls_kernelMain (hjump : CodeAt code a jumpToKernelCode b) (hrip : s.rip = a)
    (hentry : CodeAt code (s.reg .rsi) (entryPointCode stack kernelMain) fin)
    (hfin : CodeAt code fin (finCode fin) c) (halign : 16 ∣ stack.toNat) :
    ∃ t, Reaches code s t ∧ KernelEntry stack kernelMain fin s t ∧ 16 ∣ (t.reg .rsp + 8).toNat ∧
      ∀ k m u, Returned k m t u → ∀ v, Reaches code u v →
        InLoop code fin v.rip ∧ v.reg = u.reg ∧ v.sys = u.sys ∧ v.mem = u.mem ∧ ∃ w, step code v = some w := by
  obtain ⟨t, ht, hentered⟩ := entry_reaches hjump hrip hentry
  refine ⟨t, ht, hentered, hentered.aligned halign, fun k m u hret v hv => ?_⟩
  have hwaiting := Waiting.run hfin (hret.rip.trans hentered.returnAddress) hv
  obtain ⟨w, hw, -⟩ := hwaiting.step hfin
  exact ⟨hwaiting.next, hwaiting.reg, hwaiting.sys, hwaiting.mem, w, hw⟩

/-! ### The code at some addresses -/

/-- The loader's code at `0x7000`, the kernel's at `0x100000`, its stack at `0x200000`. -/
def entryCode : Code := fun a =>
  if a = 0x7000 then some (.jmpReg .rsi, 2)
  else if a = 0x100000 then some (.op (.movImm .rsp 0x300000), 10)
  else if a = 0x10000a then some (.call 0x100100, 5)
  else if a = 0x10000f then some (.op .hlt, 1)
  else if a = 0x100010 then some (.jmp 0x10000f, 2)
  else none

def loaderState : State where
  rip := 0x7000
  reg r := if r = .rsi then 0x100000 else 0
  sys := ⟨fun _ => 0, ⟨0, 0⟩, ⟨0, 0⟩, 0⟩
  mem _ := 0

theorem entryCode_calls_kernelMain : ∃ t, Reaches entryCode loaderState t ∧
    KernelEntry 0x200000 0x100100 0x10000f loaderState t ∧ 16 ∣ (t.reg .rsp + 8).toNat ∧
      ∀ k m u, Returned k m t u → ∀ v, Reaches entryCode u v →
        InLoop entryCode 0x10000f v.rip ∧ v.reg = u.reg ∧ v.sys = u.sys ∧ v.mem = u.mem ∧
          ∃ w, step entryCode v = some w :=
  entry_point_calls_kernelMain (a := 0x7000) (b := 0x7002) (c := 0x100012) ⟨2, rfl, rfl⟩ rfl
    ⟨10, rfl, 5, rfl, rfl⟩ ⟨1, rfl, 2, rfl, rfl⟩ (by decide)

end MosaOS
