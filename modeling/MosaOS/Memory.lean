import MosaOS.MemoryManager
import MosaOS.Lib.ByteMem

/-!
# Physical memory

The bytes that the loader and the kernel share, and the integers they read there.
-/

namespace MosaOS
open ByteMem

abbrev Memory := Mem 64

def readU16 (m : Memory) (a : SizeT) : BitVec 16 := BitVec.ofNat 16 (readNat m 2 a)
def readU32 (m : Memory) (a : SizeT) : BitVec 32 := BitVec.ofNat 32 (readNat m 4 a)
def readU64 (m : Memory) (a : SizeT) : BitVec 64 := BitVec.ofNat 64 (readNat m 8 a)

def writeBytes (m : Memory) (buf : SizeT) (bytes : List (BitVec 8)) : Memory := fun a =>
  bytes.getD (a - buf).toNat (m a)

def leBytes (n v : ℕ) : List (BitVec 8) := (List.range n).map fun i => BitVec.ofNat 8 (v / 256 ^ i)

@[simp] theorem length_leBytes (n v : ℕ) : (leBytes n v).length = n := by
  simp [leBytes]

/-- The bytes of a number behind those of another one are the bytes of both. -/
theorem leBytes_append {w u n : ℕ} (hw : w = 8 * n) (k : ℕ) (x : BitVec w) (y : BitVec u) :
    leBytes n x.toNat ++ leBytes k y.toNat = leBytes (n + k) (y ++ x).toNat := by
  have hpow : 2 ^ w = 256 ^ n := by
    rw [hw, Nat.pow_mul]
  have hx : x.toNat < 256 ^ n := hpow ▸ x.isLt
  have hsum : (y ++ x).toNat = x.toNat + 256 ^ n * y.toNat := by
    rw [BitVec.toNat_append, ← Nat.shiftLeft_add_eq_or_of_lt x.isLt, Nat.shiftLeft_eq, hpow,
      Nat.mul_comm, Nat.add_comm]
  rw [hsum]
  unfold leBytes
  rw [List.range_add, List.map_append, List.map_map]
  congr 1
  · refine List.map_congr_left fun i hi => BitVec.eq_of_toNat_eq ?_
    rw [List.mem_range] at hi
    obtain ⟨j, rfl⟩ : ∃ j, n = i + (j + 1) := ⟨n - i - 1, by omega⟩
    rw [BitVec.toNat_ofNat, BitVec.toNat_ofNat, Nat.pow_add, Nat.mul_assoc,
      Nat.add_mul_div_left _ _ (Nat.pow_pos (by decide)),
      show 256 ^ (j + 1) = 256 * 256 ^ j from Nat.pow_succ', Nat.mul_assoc]
    exact (Nat.add_mul_mod_self_left _ _ _).symm
  · refine List.map_congr_left fun i _ => ?_
    rw [Function.comp_apply, Nat.pow_add, ← Nat.div_div_eq_div_mul,
      Nat.add_mul_div_left _ _ (Nat.pow_pos (by decide)), Nat.div_eq_of_lt hx, Nat.zero_add]

theorem readNat_of_leBytes {m : Memory} {a : SizeT} {n v : ℕ} (h : BytesAt m a (leBytes n v)) :
    readNat m n a = v % 256 ^ n := by
  refine readNat_of_bytes fun i hi => ?_
  have hbyte := h i (by rwa [length_leBytes])
  rw [hbyte]
  simp [leBytes]

theorem ofNat_readNat {m : Memory} {a : SizeT} {w n : ℕ} (hw : w = 8 * n) {x : BitVec w}
    (h : BytesAt m a (leBytes n x.toNat)) : BitVec.ofNat w (readNat m n a) = x := by
  have hpow : 256 ^ n = 2 ^ w := by
    rw [hw, Nat.pow_mul]
  rw [readNat_of_leBytes h, hpow, Nat.mod_eq_of_lt x.isLt, BitVec.ofNat_toNat, BitVec.setWidth_eq]

theorem bytesAt_writeBytes (m : Memory) (a : SizeT) {bytes : List (BitVec 8)}
    (hlen : bytes.length ≤ 2 ^ 64) : BytesAt (writeBytes m a bytes) a bytes := by
  intro i hi
  rw [writeBytes, add_sub_self, toNat_ofNat_of_lt (by omega)]
  rw [List.getD_eq_getElem?_getD, List.getElem?_eq_getElem hi, Option.getD_some]

theorem eqOn_writeBytes (m : Memory) (a : SizeT) (bytes : List (BitVec 8)) :
    Set.EqOn (writeBytes m a bytes) m (range a bytes.length)ᶜ := by
  intro b hb
  rw [Set.mem_compl_iff, mem_range] at hb
  rw [writeBytes, List.getD_eq_getElem?_getD, List.getElem?_eq_none (by omega), Option.getD_none]

theorem bytesAt_writeArray {m : Memory} {a : SizeT} {size count : ℕ} {elem : Fin count → ℕ}
    (hfit : size * count ≤ 2 ^ 64) (i : Fin count) :
    BytesAt (writeArray m a size elem) (a + BitVec.ofNat 64 (size * i)) (leBytes size (elem i)) := by
  intro j hj
  rw [length_leBytes] at hj
  rw [writeArray_byte hfit i hj]
  simp [leBytes]

end MosaOS
