import MosaOS.Lib.Descriptor
import Mathlib.Logic.Relation
import Mathlib.Logic.Function.Basic

/-!
# Kernel code on an x86-64 processor

The instructions that a kernel sets up its processor with, in 64-bit mode at privilege level 0 and with all
memory mapped to itself. `Op.effect` is what an instruction does that only goes on to the next one, `step`
one instruction of the code, `Reaches` a run. `effect` and `step` are `none` where the processor raises an exception:
a selector is loaded only where the global table has a segment for it, and a table only from a canonical address
on. `Reaches.ops` runs a straight piece of code.
-/

namespace X86
open ByteMem Descriptor

inductive Reg
  | rax | rcx | rdx | rbx | rsp | rbp | rsi | rdi
  | r8 | r9 | r10 | r11 | r12 | r13 | r14 | r15
deriving DecidableEq, Repr

inductive SegReg
  | cs | ss | ds | es | fs | gs
deriving DecidableEq, Repr

/-- The registers that only system code writes. -/
structure System where
  seg : SegReg → BitVec 16
  gdtr : TableRegister 64
  idtr : TableRegister 64
  cr3 : BitVec 64

structure State where
  rip : BitVec 64
  reg : Reg → BitVec 64
  sys : System
  mem : Mem 64

/-! ### Selectors -/

/-- The data segment registers take a null selector, or one of data or of code that may be read. -/
def dataLoadable (m : Mem 64) (gdtr : TableRegister 64) (selector : BitVec 16) : Bool :=
  selector.toNat < 4 || (segmentAt m gdtr selector).any fun g =>
    g.p && g.s && (g.type < 8 || g.type.testBit 1) &&
      ((8 ≤ g.type && g.type.testBit 2) || selector.toNat % 4 ≤ g.dpl)

/-- The stack segment register takes null, or data of this level that may be written. -/
def stackLoadable (m : Mem 64) (gdtr : TableRegister 64) (selector : BitVec 16) : Bool :=
  selector = 0 || (segmentAt m gdtr selector).any fun g =>
    g.p && g.s && g.type < 8 && g.type.testBit 1 && selector.toNat % 4 = 0 && g.dpl = 0

/-- A far return that stays in 64-bit mode at this level goes to 64-bit code of this level. -/
def codeLoadable (m : Mem 64) (gdtr : TableRegister 64) (selector : BitVec 16) : Bool :=
  selector.toNat % 4 = 0 && (segmentAt m gdtr selector).any fun g =>
    g.p && g.s && 8 ≤ g.type && g.dpl = 0 && g.l && !g.d

def System.loadable (sys : System) (m : Mem 64) : SegReg → BitVec 16 → Bool
  | .cs, _ => false -- `mov` does not load `cs`
  | .ss, selector => stackLoadable m sys.gdtr selector
  | _, selector => dataLoadable m sys.gdtr selector

def System.setSeg (sys : System) (r : SegReg) (selector : BitVec 16) : System :=
  { sys with seg := Function.update sys.seg r selector }

/-- The low 48 bits of an address say what the others are. -/
def Canonical (a : BitVec 64) : Prop := (a.setWidth 48).signExtend 64 = a

instance (a : BitVec 64) : Decidable (Canonical a) := inferInstanceAs (Decidable (_ = _))

def System.setGdtr (sys : System) (gdtr : TableRegister 64) : Option System :=
  if Canonical gdtr.base then some { sys with gdtr } else none

def System.setIdtr (sys : System) (idtr : TableRegister 64) : Option System :=
  if Canonical idtr.base then some { sys with idtr } else none

/-! ### Instructions -/

inductive Op
  | mov (dst src : Reg)
  | movImm (dst : Reg) (v : BitVec 64)
  /-- The low `n` bytes of `src` to `[base + off]`. -/
  | store (n : ℕ) (base : Reg) (off : BitVec 64) (src : Reg)
  | sub (dst : Reg) (v : BitVec 64)
  | push (src : Reg)
  | pop (dst : Reg)
  /-- On the low halves; the high half of `dst` becomes zero. -/
  | xor32 (dst src : Reg)
  | lgdt (base : Reg)
  | lidt (base : Reg)
  | movToSeg (dst : SegReg) (src : Reg)
  /-- The low 16 bits of `dst`. -/
  | movFromSeg (dst : Reg) (src : SegReg)
  /-- The processor waits for an interrupt, and then goes on. -/
  | hlt
deriving DecidableEq, Repr

namespace State

def set (s : State) (r : Reg) (v : BitVec 64) : State := { s with reg := Function.update s.reg r v }

def pushed (s : State) (v : BitVec 64) : State :=
  { s.set .rsp (s.reg .rsp - 8) with mem := writeNat s.mem 8 (s.reg .rsp - 8) v.toNat }

/-- The quadword on the top of the stack. -/
def top (s : State) : BitVec 64 := BitVec.ofNat 64 (readNat s.mem 8 (s.reg .rsp))

def table (s : State) (base : BitVec 64) : TableRegister 64 where
  limit := BitVec.ofNat 16 (readNat s.mem 2 base)
  base := BitVec.ofNat 64 (readNat s.mem 8 (base + 2))

end State

def Op.effect (s : State) : Op → Option State
  | mov dst src => some (s.set dst (s.reg src))
  | movImm dst v => some (s.set dst v)
  | store n base off src => some { s with mem := writeNat s.mem n (s.reg base + off) (s.reg src).toNat }
  | sub dst v => some (s.set dst (s.reg dst - v))
  | push src => some (s.pushed (s.reg src))
  | pop dst => some ((s.set .rsp (s.reg .rsp + 8)).set dst s.top)
  | xor32 dst src => some (s.set dst (((s.reg dst).setWidth 32 ^^^ (s.reg src).setWidth 32).setWidth 64))
  | lgdt base => (s.sys.setGdtr (s.table (s.reg base))).map fun sys => { s with sys }
  | lidt base => (s.sys.setIdtr (s.table (s.reg base))).map fun sys => { s with sys }
  | movToSeg dst src =>
    let selector := (s.reg src).setWidth 16
    if s.sys.loadable s.mem dst selector then
      some { s with sys := s.sys.setSeg dst selector, mem := markAccessed s.mem s.sys.gdtr selector }
    else none
  | movFromSeg dst src => some (s.set dst ((s.reg dst).extractLsb' 16 48 ++ s.sys.seg src))
  | hlt => some s

inductive Instr
  | op (o : Op)
  | call (target : BitVec 64)
  | jmp (target : BitVec 64)
  | jmpReg (r : Reg)
  | ret
  /-- The far return with 64-bit operands: `rip`, and above it `cs`. -/
  | retf
deriving DecidableEq, Repr

/-- What an instruction does that ends at `next`. -/
def Instr.exec (next : BitVec 64) (s : State) : Instr → Option State
  | op o => (o.effect s).map fun s => { s with rip := next }
  | call target => some { s.pushed next with rip := target }
  | jmp target => some { s with rip := target }
  | jmpReg r => some { s with rip := s.reg r }
  | ret => some { s.set .rsp (s.reg .rsp + 8) with rip := s.top }
  | retf =>
    let selector := BitVec.ofNat 16 (readNat s.mem 8 (s.reg .rsp + 8))
    if codeLoadable s.mem s.sys.gdtr selector then
      some { s.set .rsp (s.reg .rsp + 16) with
        rip := s.top, sys := s.sys.setSeg .cs selector, mem := markAccessed s.mem s.sys.gdtr selector }
    else none

/-- The instruction at an address, with its length. -/
abbrev Code := BitVec 64 → Option (Instr × ℕ)

def step (code : Code) (s : State) : Option State := do
  let (i, len) ← code s.rip
  i.exec (s.rip + BitVec.ofNat 64 len) s

def Reaches (code : Code) : State → State → Prop := Relation.ReflTransGen fun s t => step code s = some t

/-- The instructions stand one after the other from `a` to `b`. -/
def CodeAt (code : Code) : BitVec 64 → List Instr → BitVec 64 → Prop
  | a, [], b => a = b
  | a, i :: is, b => ∃ len, code a = some (i, len) ∧ CodeAt code (a + BitVec.ofNat 64 len) is b

variable {code : Code} {s t u : State} {a b c : BitVec 64} {i : Instr} {is js : List Instr} {os : List Op}

/-! ### Registers -/

namespace State

@[simp] theorem set_self (s : State) (r : Reg) (v : BitVec 64) : (s.set r v).reg r = v :=
  Function.update_self ..

@[simp] theorem set_set (s : State) (r : Reg) (v v' : BitVec 64) : (s.set r v).set r v' = s.set r v' := by
  simp [set]

theorem set_of_ne {r r' : Reg} (h : r' ≠ r) (s : State) (v : BitVec 64) : (s.set r v).reg r' = s.reg r' :=
  Function.update_of_ne h ..

@[simp] theorem mem_set (s : State) (r : Reg) (v : BitVec 64) : (s.set r v).mem = s.mem := rfl

@[simp] theorem sys_set (s : State) (r : Reg) (v : BitVec 64) : (s.set r v).sys = s.sys := rfl

/-! ### The stack -/

theorem pushed_rsp (s : State) (v : BitVec 64) : (s.pushed v).reg .rsp = s.reg .rsp - 8 :=
  set_self s .rsp _

theorem pushed_of_ne {r : Reg} (h : r ≠ .rsp) (s : State) (v : BitVec 64) : (s.pushed v).reg r = s.reg r :=
  set_of_ne h s _

theorem top_pushed (s : State) (v : BitVec 64) : (s.pushed v).top = v := by
  have hread : readNat (s.pushed v).mem 8 (s.reg .rsp - 8) = v.toNat % 256 ^ 8 := readNat_writeNat (by decide)
  rw [top, pushed_rsp, hread]
  refine BitVec.eq_of_toNat_eq ?_
  rw [BitVec.toNat_ofNat]
  exact (Nat.mod_mod _ _).trans (Nat.mod_eq_of_lt v.isLt)

/-- What was on the top before is the next word. -/
theorem readNat_pushed (s : State) (v : BitVec 64) :
    readNat (s.pushed v).mem 8 (s.reg .rsp) = readNat s.mem 8 (s.reg .rsp) := by
  have hap : Disjoint (range (s.reg .rsp - BitVec.ofNat 64 8) 8) (range (s.reg .rsp - BitVec.ofNat 64 0) 8) :=
    disjoint_range_sub (by decide) (by decide)
  rw [BitVec.sub_zero] at hap
  exact readNat_writeNat_of_disjoint (by decide) hap.symm

theorem eqOn_pushed (s : State) (v : BitVec 64) :
    Set.EqOn (s.pushed v).mem s.mem (range (s.reg .rsp - BitVec.ofNat 64 8) 8)ᶜ := eqOn_writeNat ..

end State

/-! ### Runs -/

theorem codeAt_append : CodeAt code a (is ++ js) c ↔ ∃ b, CodeAt code a is b ∧ CodeAt code b js c := by
  induction is generalizing a with
  | nil => simp [CodeAt]
  | cons i is ih =>
    simp only [List.cons_append, CodeAt, ih]
    constructor
    · rintro ⟨len, hi, b, his, hjs⟩
      exact ⟨b, ⟨len, hi, his⟩, hjs⟩
    · rintro ⟨b, ⟨len, hi, his⟩, hjs⟩
      exact ⟨len, hi, b, his, hjs⟩

theorem Reaches.trans (h : Reaches code s t) (h' : Reaches code t u) : Reaches code s u :=
  Relation.ReflTransGen.trans h h'

theorem Reaches.of_step (h : step code s = some t) : Reaches code s t := Relation.ReflTransGen.single h

/-- Where the address is the one of the first instruction, that one is executed. -/
theorem CodeAt.step (h : CodeAt code a (i :: is) b) (hrip : s.rip = a) :
    ∃ next, CodeAt code next is b ∧ X86.step code s = i.exec next s := by
  obtain ⟨len, hi, his⟩ := h
  refine ⟨_, his, ?_⟩
  simp [X86.step, hrip, hi]

/-- What the next instructions do does not depend on where they stand. -/
theorem Op.effect_rip (o : Op) (s : State) (a : BitVec 64) :
    o.effect { s with rip := a } = (o.effect s).map fun t => { t with rip := a } := by
  cases o with
  | movToSeg dst src =>
    simp only [effect]
    split
    · rfl
    · rfl
  | lgdt base =>
    simp only [effect, State.table, Option.map_map]
    rfl
  | lidt base =>
    simp only [effect, State.table, Option.map_map]
    rfl
  | _ => rfl

theorem Op.effects_rip (os : List Op) (s : State) (a : BitVec 64) :
    os.foldlM effect { s with rip := a } = (os.foldlM effect s).map fun t => { t with rip := a } := by
  induction os generalizing s with
  | nil => rfl
  | cons o os ih =>
    rw [List.foldlM_cons, List.foldlM_cons, effect_rip]
    cases ho : o.effect s with
    | none => rfl
    | some t => exact ih t

/-- Straight code does what its instructions do one after the other. -/
theorem Reaches.ops (h : CodeAt code a (os.map Instr.op) b) (hrip : s.rip = a)
    (heffect : os.foldlM Op.effect s = some t) : Reaches code s { t with rip := b } := by
  induction os generalizing a s t with
  | nil =>
    cases heffect
    obtain rfl : a = b := h
    rw [← hrip]
    exact Relation.ReflTransGen.refl
  | cons o os ih =>
    rw [List.foldlM_cons, Option.bind_eq_bind, Option.bind_eq_some_iff] at heffect
    obtain ⟨u, hu, hrest⟩ := heffect
    obtain ⟨next, hnext, hstep⟩ := h.step hrip
    have hfirst : Reaches code s { u with rip := next } := .of_step (by simp [hstep, Instr.exec, hu])
    have heffect : os.foldlM Op.effect { u with rip := next } = some { t with rip := next } := by
      rw [Op.effects_rip, hrest]
      rfl
    have hthen := ih hnext rfl heffect
    exact hfirst.trans hthen

/-- Straight code, and one more instruction. -/
theorem Reaches.ops_then (h : CodeAt code a (os.map Instr.op ++ i :: is) c) (hrip : s.rip = a)
    (heffect : os.foldlM Op.effect s = some t) :
    ∃ b next, CodeAt code next is c ∧ ∀ u, i.exec next { t with rip := b } = some u → Reaches code s u := by
  obtain ⟨b, hos, hi⟩ := codeAt_append.1 h
  obtain ⟨next, hnext, hstep⟩ := hi.step (s := { t with rip := b }) rfl
  refine ⟨b, next, hnext, fun u hu => ?_⟩
  exact (Reaches.ops hos hrip heffect).trans (.of_step (by rw [hstep, hu]))

/-! ### Calls -/

/-- The registers that a called function leaves as it finds them, besides the stack pointer. -/
def calleeSaved : List Reg := [.rbx, .rbp, .r12, .r13, .r14, .r15]

/-- A call that began in `s`, with the return address on the top of the stack, is over in `t`. It has left the memory
`m`, besides what it wrote to the `k` bytes below the return address. -/
structure Returned (k : ℕ) (m : Mem 64) (s t : State) : Prop where
  rip : t.rip = s.top
  rsp : t.reg .rsp = s.reg .rsp + 8
  saved : ∀ r ∈ calleeSaved, t.reg r = s.reg r
  mem : Set.EqOn t.mem m (range (s.reg .rsp - BitVec.ofNat 64 k) k)ᶜ

/-- The first instructions of a function with a frame. -/
def enter : List Op := [.push .rbp, .mov .rbp .rsp]

/-- The last ones before it returns. -/
def leave : List Op := [.mov .rsp .rbp, .pop .rbp]

namespace State

def entered (s : State) : State := (s.pushed (s.reg .rbp)).set .rbp (s.reg .rsp - 8)

end State

theorem enter_effect (s : State) : enter.foldlM Op.effect s = some s.entered := rfl

theorem State.entered_of_ne {r : Reg} (hsp : r ≠ .rsp) (hbp : r ≠ .rbp) : s.entered.reg r = s.reg r := by
  simp [State.entered, State.pushed, State.set_of_ne, hsp, hbp]

theorem State.entered_rbp (s : State) : s.entered.reg .rbp = s.reg .rsp - 8 := State.set_self ..

theorem State.entered_rsp (s : State) : s.entered.reg .rsp = s.reg .rsp - 8 := by
  simp [State.entered, State.pushed, State.set_of_ne]

/-- A function with a frame returns where the code between the two ends of the frame leaves the saved `rbp` and the
return address as they are, and keeps the registers of the caller. -/
theorem Reaches.leave {k : ℕ} {m : Mem 64} (h : CodeAt code a (leave.map Instr.op ++ [.ret]) b) (hrip : t.rip = a)
    (hsaved : ∀ r ∈ calleeSaved, t.reg r = s.entered.reg r)
    (hkeep : Set.EqOn t.mem s.entered.mem (range (s.reg .rsp - BitVec.ofNat 64 8) 16))
    (hmem : Set.EqOn t.mem m (range (s.reg .rsp - BitVec.ofNat 64 k) k)ᶜ) :
    ∃ u, Reaches code t u ∧ Returned k m s u ∧ u.sys = t.sys ∧ u.reg .rax = t.reg .rax := by
  have hbp : t.reg .rbp = s.reg .rsp - 8 := (hsaved .rbp (by simp [calleeSaved])).trans s.entered_rbp
  have hsum : s.reg .rsp - 8 + 8 = s.reg .rsp := BitVec.sub_add_cancel _ _
  have hkeep : Set.EqOn t.mem s.entered.mem (range (s.reg .rsp - 8) 16) := hkeep
  have hsub : range (s.reg .rsp - BitVec.ofNat 64 0) 8 ⊆ range (s.reg .rsp - BitVec.ofNat 64 8) 16 :=
    range_sub_subset (by decide) (by decide) (by decide)
  rw [BitVec.sub_zero] at hsub
  have hrbp : BitVec.ofNat 64 (readNat t.mem 8 (s.reg .rsp - 8)) = s.reg .rbp := by
    rw [readNat_congr (by decide) (hkeep.mono (range_mono (by decide)))]
    exact s.top_pushed (s.reg .rbp)
  have htop : readNat t.mem 8 (s.reg .rsp) = readNat s.mem 8 (s.reg .rsp) := by
    rw [readNat_congr (by decide) (hkeep.mono hsub)]
    exact s.readNat_pushed (s.reg .rbp)
  have heffect : X86.leave.foldlM Op.effect t = some (((t.set .rsp (t.reg .rbp)).set .rsp (t.reg .rbp + 8)).set .rbp
      (BitVec.ofNat 64 (readNat t.mem 8 (t.reg .rbp)))) := rfl
  rw [hbp, hsum, hrbp, State.set_set] at heffect
  obtain ⟨b, next, -, hret⟩ := Reaches.ops_then h hrip heffect
  refine ⟨_, hret _ rfl, ⟨?_, ?_, fun r hr => ?_, hmem⟩, rfl, ?_⟩
  · simp [State.top, State.set_of_ne, htop]
  · simp [State.set_of_ne]
  · by_cases hne : r = .rbp
    · subst hne
      simp [State.set_of_ne]
    · have hsp : r ≠ .rsp := by
        rintro rfl
        simp [calleeSaved] at hr
      have hold : t.reg r = s.reg r := (hsaved r hr).trans (State.entered_of_ne hsp hne)
      simp [State.set_of_ne, hsp, hne, hold]
  · simp [State.set_of_ne]

/-- What is written below the frame leaves the saved `rbp` and the return address as they are. -/
theorem State.eqOn_entered {k : ℕ} {m : Mem 64} (hk : k ≤ 2 ^ 32)
    (h : Set.EqOn m s.entered.mem (range (s.reg .rsp - BitVec.ofNat 64 (8 + k)) k)ᶜ) :
    Set.EqOn m s.entered.mem (range (s.reg .rsp - BitVec.ofNat 64 8) 16) ∧
      Set.EqOn m s.mem (range (s.reg .rsp - BitVec.ofNat 64 (8 + k)) (8 + k))ᶜ := by
  have hframe : Disjoint (range (s.reg .rsp - BitVec.ofNat 64 (8 + k)) k)
      (range (s.reg .rsp - BitVec.ofNat 64 8) 16) := disjoint_range_sub (by omega) (by omega)
  have hbelow : range (s.reg .rsp - BitVec.ofNat 64 (8 + k)) k ⊆ range (s.reg .rsp - BitVec.ofNat 64 (8 + k)) (8 + k) :=
    range_mono (by omega)
  have hslot : range (s.reg .rsp - BitVec.ofNat 64 8) 8 ⊆ range (s.reg .rsp - BitVec.ofNat 64 (8 + k)) (8 + k) :=
    range_sub_subset (by omega) (by omega) (by omega)
  refine ⟨h.mono fun x hx hx' => Set.disjoint_left.1 hframe hx' hx, fun x hx => ?_⟩
  exact (h fun hin => hx (hbelow hin)).trans (s.eqOn_pushed (s.reg .rbp) fun hin => hx (hslot hin))

/-- The bytes below the stack pointer that a call may write to are among those of a larger count. -/
theorem Returned.mono {k n : ℕ} {m : Mem 64} (h : Returned k m s t) (hkn : k ≤ n) (hn : n ≤ 2 ^ 64) :
    Returned n m s t where
  rip := h.rip
  rsp := h.rsp
  saved := h.saved
  mem := h.mem.mono fun _ hx hx' => hx (range_sub_subset hkn (by omega) hn hx')

/-- A function without a frame returns where its code keeps the return address and the registers of the caller. -/
theorem Reaches.ret (h : CodeAt code a (os.map Instr.op ++ [.ret]) b) (hrip : s.rip = a)
    (heffect : os.foldlM Op.effect s = some t) (hreg : ∀ r ∈ Reg.rsp :: calleeSaved, t.reg r = s.reg r)
    (hkeep : Set.EqOn t.mem s.mem (range (s.reg .rsp) 8)) :
    ∃ u, Reaches code s u ∧ Returned 0 t.mem s u ∧ u.sys = t.sys ∧ u.reg .rax = t.reg .rax := by
  have hsp : t.reg .rsp = s.reg .rsp := hreg .rsp (by simp)
  have htop : readNat t.mem 8 (s.reg .rsp) = readNat s.mem 8 (s.reg .rsp) := readNat_congr (by decide) hkeep
  obtain ⟨b, next, -, hret⟩ := Reaches.ops_then h hrip heffect
  refine ⟨_, hret _ rfl, ⟨?_, ?_, fun r hr => ?_, fun _ _ => rfl⟩, rfl, ?_⟩
  · simp [State.top, hsp, htop]
  · simp [hsp]
  · have hne : r ≠ .rsp := by
      rintro rfl
      simp [calleeSaved] at hr
    simp [State.set_of_ne, hne, hreg r (by simp [hr])]
  · simp [State.set_of_ne]

/-! ### Loading a segment -/

section
variable {m m' : Mem 64} {gdtr : TableRegister 64} {selector : BitVec 16}

theorem or_one_lt_eight {n : ℕ} : n ||| 1 < 8 ↔ n < 8 :=
  ⟨fun h => lt_of_le_of_lt Nat.left_le_or h, fun h => Nat.or_lt_two_pow (n := 3) h (by decide)⟩

theorem testBit_or_one (n i : ℕ) : (n ||| 1).testBit (i + 1) = n.testBit (i + 1) := by
  rw [Nat.testBit_or, Nat.testBit_succ 1, Nat.div_eq_of_lt (by simp), Nat.zero_testBit, Bool.or_false]

theorem inTable_of_any {p : Segment → Bool} (h : (segmentAt m gdtr selector).any p) : InTable gdtr selector := by
  obtain ⟨g, hg, -⟩ := (Option.any_eq_true _ _).1 h
  exact inTable_of_segmentAt hg

theorem inTable_of_dataLoadable (h : dataLoadable m gdtr selector) : InTable gdtr selector := by
  rcases (Bool.or_eq_true _ _).mp h with hnull | hany
  · exact Or.inl (of_decide_eq_true hnull)
  · exact inTable_of_any hany

theorem inTable_of_stackLoadable (h : stackLoadable m gdtr selector) : InTable gdtr selector := by
  rcases (Bool.or_eq_true _ _).mp h with hnull | hany
  · rw [of_decide_eq_true hnull]
    exact Or.inl (by simp)
  · exact inTable_of_any hany

theorem inTable_of_codeLoadable (h : codeLoadable m gdtr selector) : InTable gdtr selector :=
  inTable_of_any ((Bool.and_eq_true _ _).mp h).2

/-- The accessed bit does not matter for the next load. -/
theorem dataLoadable_markAccessed (h : dataLoadable m gdtr selector) :
    dataLoadable (markAccessed m gdtr selector) gdtr selector := by
  by_cases hnull : selector.toNat < 4
  · rwa [markAccessed_of_null hnull]
  · cases hg : segmentAt m gdtr selector with
    | none =>
      rw [dataLoadable, hg] at h
      simp [hnull] at h
    | some g =>
      rw [dataLoadable, hg] at h
      rw [dataLoadable, segmentAt_markAccessed hg]
      have htype : g.accessed.type = g.type ||| 1 := rfl
      have hle : 8 ≤ g.type ||| 1 ↔ 8 ≤ g.type := by
        rw [← Nat.not_lt, or_one_lt_eight, Nat.not_lt]
      simp only [Option.any_some] at h
      simp only [Option.any_some, htype, or_one_lt_eight, hle, testBit_or_one]
      exact h

end

end X86
