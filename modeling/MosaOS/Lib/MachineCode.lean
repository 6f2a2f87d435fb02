import MosaOS.Lib.Machine

/-!
# The machine code of some instructions

`decode` reads the instruction that stands at an address in memory: moves of 64-bit constants, calls and jumps, as an
assembler writes them for the first eight registers.
-/

namespace X86
open ByteMem

def lowReg (n : BitVec 3) : Reg :=
  match n.toNat with
  | 0 => .rax
  | 1 => .rcx
  | 2 => .rdx
  | 3 => .rbx
  | 4 => .rsp
  | 5 => .rbp
  | 6 => .rsi
  | _ => .rdi

/-- `none` for all other bytes. -/
def decode (m : Mem 64) : Code := fun a =>
  let opcode := m a
  let second := m (a + 1)
  let r := lowReg (second.extractLsb' 0 3)
  if opcode = 0x48 ∧ second.extractLsb' 3 5 = 0b10111 then
    some (.op (.movImm r (BitVec.ofNat 64 (readNat m 8 (a + 2)))), 10)
  else if opcode = 0xe8 then some (.call (a + 5 + (BitVec.ofNat 32 (readNat m 4 (a + 1))).signExtend 64), 5)
  else if opcode = 0xeb then some (.jmp (a + 2 + second.signExtend 64), 2)
  else if opcode = 0xf4 then some (.op .hlt, 1)
  else if opcode = 0xff ∧ second.extractLsb' 3 5 = 0b11100 then some (.jmpReg r, 2)
  else none

variable {m : Mem 64} {a : BitVec 64}

theorem decode_movImm (hopcode : m a = 0x48) (hsecond : (m (a + 1)).extractLsb' 3 5 = 0b10111) : decode m a =
    some (.op (.movImm (lowReg ((m (a + 1)).extractLsb' 0 3)) (BitVec.ofNat 64 (readNat m 8 (a + 2)))), 10) :=
  if_pos ⟨hopcode, hsecond⟩

theorem decode_call (hopcode : m a = 0xe8) : decode m a =
    some (.call (a + 5 + (BitVec.ofNat 32 (readNat m 4 (a + 1))).signExtend 64), 5) := by
  rw [decode, hopcode]
  rfl

theorem decode_jmpReg (hopcode : m a = 0xff) (hsecond : (m (a + 1)).extractLsb' 3 5 = 0b11100) :
    decode m a = some (.jmpReg (lowReg ((m (a + 1)).extractLsb' 0 3)), 2) := by
  rw [decode, hopcode, hsecond]
  rfl

end X86
