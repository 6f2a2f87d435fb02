import Mathlib.Data.Nat.Bitwise
import Mathlib.Algebra.Group.Nat.Defs

/-!
# The x86-64 four-level page walk

`walkFrom` goes down one level of tables a step: level 3 is the table `cr3` points to, level 0 holds
the 4 KiB pages. An entry with its size bit set is a leaf of levels 1 and 2 and reserved at level 3.
Table entries are usually built as an aligned address with some flags below it: `base_or`,
`getLsbD_or` read such an entry back.
-/

namespace PageWalk

inductive Fault where
  | notPresent | reserved
deriving DecidableEq, Repr

/-- Where a walk ends: the physical address, and whether every entry on the way allows writes. -/
structure Translation where
  phys : ℕ
  writable : Bool
deriving DecidableEq, Repr

def present (e : BitVec 64) : Bool := e.getLsbD 0
def writable (e : BitVec 64) : Bool := e.getLsbD 1
def large (e : BitVec 64) : Bool := e.getLsbD 7

/-- The address an entry holds, in its bits `shift` to 51. -/
def base (e : BitVec 64) (shift : ℕ) : ℕ := e.toNat % 2 ^ 52 / 2 ^ shift * 2 ^ shift

/-- The bits between the PAT bit of a large page and its address have to be zero. -/
def reservedClear (e : BitVec 64) (shift : ℕ) : Bool := e.toNat / 2 ^ 13 % 2 ^ (shift - 13) == 0

def shift (level : ℕ) : ℕ := 12 + 9 * level

def index (va : BitVec 48) (level : ℕ) : ℕ := va.toNat / 2 ^ shift level % 512

def leaf (e : BitVec 64) (va : BitVec 48) (level : ℕ) (rw : Bool) : Translation where
  phys := base e (shift level) + va.toNat % 2 ^ shift level
  writable := rw && writable e

/-- The walk below a table at the physical address `table`; `read` reads physical memory. -/
def walkFrom (read : ℕ → BitVec 64) (va : BitVec 48) : ℕ → ℕ → Bool → Except Fault Translation
  | 0, table, rw =>
    let e := read (table + 8 * index va 0)
    if present e then .ok (leaf e va 0 rw) else .error .notPresent
  | level + 1, table, rw =>
    let e := read (table + 8 * index va (level + 1))
    if !present e then .error .notPresent
    else if large e then
      if level + 1 < 3 && reservedClear e (shift (level + 1)) then .ok (leaf e va (level + 1) rw)
      else .error .reserved
    else walkFrom read va level (base e 12) (rw && writable e)

def walk (read : ℕ → BitVec 64) (cr3 : BitVec 64) (va : BitVec 48) : Except Fault Translation :=
  walkFrom read va 3 (base cr3 12) true

variable {read : ℕ → BitVec 64} {va : BitVec 48} {level table : ℕ} {rw : Bool} {e : BitVec 64}

theorem walkFrom_notPresent (he : read (table + 8 * index va (level + 1)) = e)
    (hp : present e = false) : walkFrom read va (level + 1) table rw = .error .notPresent := by
  simp only [walkFrom, he, hp, Bool.not_false, if_true]

theorem walkFrom_table (he : read (table + 8 * index va (level + 1)) = e)
    (hp : present e = true) (hl : large e = false) :
    walkFrom read va (level + 1) table rw = walkFrom read va level (base e 12) (rw && writable e) := by
  simp only [walkFrom, he, hp, hl, Bool.not_true, Bool.false_eq_true, if_false]

theorem walkFrom_large (he : read (table + 8 * index va (level + 1)) = e) (hp : present e = true)
    (hl : large e = true) (hlevel : level + 1 < 3)
    (hr : reservedClear e (shift (level + 1)) = true) :
    walkFrom read va (level + 1) table rw = .ok (leaf e va (level + 1) rw) := by
  simp only [walkFrom, he, hp, hl, hr, hlevel, Bool.not_true, Bool.false_eq_true, if_false, if_true,
    decide_true, Bool.and_self]

theorem index_three (va : BitVec 48) : index va 3 = va.toNat / 2 ^ 39 % 512 := rfl
theorem index_two (va : BitVec 48) : index va 2 = va.toNat / 2 ^ 30 % 512 := rfl
theorem index_one (va : BitVec 48) : index va 1 = va.toNat / 2 ^ 21 % 512 := rfl

/-! ### An address with flags below it -/

variable {a f : BitVec 64} {k : ℕ}

theorem toNat_or (ha : 2 ^ k ∣ a.toNat) (hf : f.toNat < 2 ^ k) :
    (a ||| f).toNat = a.toNat + f.toNat := by
  obtain ⟨c, hc⟩ := ha
  rw [BitVec.toNat_or, hc, Nat.two_pow_add_eq_or_of_lt hf]

theorem getLsbD_or (ha : 2 ^ k ∣ a.toNat) {i : ℕ} (hi : i < k) : (a ||| f).getLsbD i = f.getLsbD i := by
  obtain ⟨c, hc⟩ := ha
  have hz : a.getLsbD i = false := by
    rw [BitVec.getLsbD, hc, Nat.testBit_two_pow_mul]
    simp [Nat.not_le.2 hi]
  rw [BitVec.getLsbD_or, hz, Bool.false_or]

theorem base_or (ha : 2 ^ k ∣ a.toNat) (hf : f.toNat < 2 ^ k) (hlt : a.toNat < 2 ^ 52) (hk : k ≤ 52) :
    base (a ||| f) k = a.toNat := by
  have hsum := toNat_or ha hf
  obtain ⟨c, hc⟩ := ha
  obtain ⟨d, hd⟩ : 2 ^ k ∣ 2 ^ 52 := pow_dvd_pow 2 hk
  have hcd : c < d := by
    rw [hc, hd] at hlt
    exact Nat.lt_of_mul_lt_mul_left hlt
  have hlt' : a.toNat + f.toNat < 2 ^ 52 := by
    rw [hc, hd]
    calc 2 ^ k * c + f.toNat < 2 ^ k * c + 2 ^ k := Nat.add_lt_add_left hf _
      _ = 2 ^ k * (c + 1) := (Nat.mul_succ _ _).symm
      _ ≤ 2 ^ k * d := Nat.mul_le_mul_left _ hcd
  rw [base, hsum, Nat.mod_eq_of_lt hlt', hc, Nat.mul_add_div (Nat.two_pow_pos k),
    Nat.div_eq_of_lt hf, Nat.add_zero, Nat.mul_comm]

theorem base_of_dvd (ha : 2 ^ k ∣ a.toNat) (hlt : a.toNat < 2 ^ 52) : base a k = a.toNat := by
  rw [base, Nat.mod_eq_of_lt hlt, Nat.div_mul_cancel ha]


/-! ### The bits that the processor sets -/

section
variable {e' : BitVec 64} {read' : ℕ → BitVec 64}

/-- The same entry but for its accessed and dirty bits. -/
def SameEntry (e e' : BitVec 64) : Prop := e' ||| 0x60 = e ||| 0x60

namespace SameEntry

theorem refl (e : BitVec 64) : SameEntry e e := rfl

theorem trans {e₁ : BitVec 64} (h : SameEntry e e₁) (h' : SameEntry e₁ e') : SameEntry e e' := Eq.trans h' h

theorem getLsbD_eq (h : SameEntry e e') {i : ℕ} (hi : (0x60 : BitVec 64).getLsbD i = false) :
    e'.getLsbD i = e.getLsbD i := by
  have hbit := congrArg (·.getLsbD i) h
  simpa only [BitVec.getLsbD_or, hi, Bool.or_false] using hbit

theorem present_eq (h : SameEntry e e') : present e' = present e := h.getLsbD_eq rfl

theorem writable_eq (h : SameEntry e e') : writable e' = writable e := h.getLsbD_eq rfl

theorem large_eq (h : SameEntry e e') : large e' = large e := h.getLsbD_eq rfl

theorem div_eq (h : SameEntry e e') {k : ℕ} (hk : 7 ≤ k) : e'.toNat / 2 ^ k = e.toNat / 2 ^ k := by
  refine Nat.eq_of_testBit_eq fun i => ?_
  have hi : (0x60 : BitVec 64).getLsbD (k + i) = false :=
    Nat.testBit_lt_two_pow (lt_of_lt_of_le (by decide) (Nat.pow_le_pow_right (by decide) (show 7 ≤ k + i by omega)))
  rw [Nat.testBit_div_two_pow, Nat.testBit_div_two_pow, Nat.add_comm i k]
  exact h.getLsbD_eq hi

theorem base_eq (h : SameEntry e e') {k : ℕ} (hk : 7 ≤ k) : base e' k = base e k := by
  have hmod : ∀ x : BitVec 64, x.toNat % 2 ^ 52 / 2 ^ k = x.toNat / 2 ^ k % 2 ^ (52 - k) := by
    intro x
    rcases Nat.le_total k 52 with hle | hle
    · obtain ⟨j, hj⟩ := Nat.exists_eq_add_of_le hle
      rw [hj, Nat.add_sub_cancel_left, Nat.pow_add, Nat.mod_mul_right_div_self]
    · have hlt : x.toNat % 2 ^ 52 < 2 ^ k :=
        lt_of_lt_of_le (Nat.mod_lt _ (by decide)) (Nat.pow_le_pow_right (by decide) hle)
      rw [Nat.div_eq_of_lt hlt, Nat.sub_eq_zero_of_le hle, Nat.pow_zero, Nat.mod_one]
  rw [base, base, hmod, hmod, h.div_eq hk]

theorem leaf_eq (h : SameEntry e e') (va : BitVec 48) (level : ℕ) (rw : Bool) :
    leaf e' va level rw = leaf e va level rw := by
  have hshift : 7 ≤ shift level := Nat.le_add_right_of_le (by decide)
  rw [leaf, leaf, h.base_eq hshift, h.writable_eq]

theorem reservedClear_eq (h : SameEntry e e') (shift : ℕ) : reservedClear e' shift = reservedClear e shift := by
  rw [reservedClear, reservedClear, h.div_eq (by omega)]

end SameEntry

/-- A walk does not depend on these bits. -/
theorem walkFrom_congr (h : ∀ p, SameEntry (read p) (read' p)) (va : BitVec 48) (level table : ℕ) (rw : Bool) :
    walkFrom read' va level table rw = walkFrom read va level table rw := by
  induction level generalizing table rw with
  | zero =>
    have he := h (table + 8 * index va 0)
    simp only [walkFrom, he.present_eq, he.leaf_eq]
  | succ level ih =>
    have he := h (table + 8 * index va (level + 1))
    simp only [walkFrom, he.present_eq, he.large_eq, he.writable_eq, he.leaf_eq, he.reservedClear_eq,
      he.base_eq (show 7 ≤ 12 by decide), ih]

theorem walk_congr (h : ∀ p, SameEntry (read p) (read' p)) (cr3 : BitVec 64) (va : BitVec 48) :
    walk read' cr3 va = walk read cr3 va := walkFrom_congr h va 3 _ _

end

end PageWalk
