import Mathlib.Data.Set.Function
import Mathlib.Data.Set.Lattice
import Mathlib.Order.CompletePartialOrder
import Mathlib.Algebra.Group.Nat.Defs

/-!
# Byte memory with circular addresses

A memory gives a byte for every `w`-bit address; address arithmetic wraps. `range base len` holds the
`len` addresses from `base` on, `readNat` reads a little-endian number, `writeNat` stores one, and `copyMem`
copies a block as if through a buffer, so that source and destination may overlap. `overwrite` is for blocks
whose new contents do not matter.
-/

namespace ByteMem
variable {w : ℕ}

abbrev Mem (w : ℕ) := BitVec w → BitVec 8

def range (base : BitVec w) (len : ℕ) : Set (BitVec w) := {a | (a - base).toNat < len}

variable {m m' : Mem w} {a b base dst src : BitVec w} {k n len len' : ℕ}

theorem mem_range : a ∈ range base len ↔ (a - base).toNat < len := Iff.rfl

theorem range_mono (h : len ≤ len') : range base len ⊆ range base len' := fun _ ha =>
  lt_of_lt_of_le ha h

theorem toNat_ofNat_of_lt (hk : k < 2 ^ w) : (BitVec.ofNat w k).toNat = k := by
  rw [BitVec.toNat_ofNat, Nat.mod_eq_of_lt hk]

theorem add_sub_self (a : BitVec w) (k : ℕ) : a + BitVec.ofNat w k - a = BitVec.ofNat w k := by
  rw [BitVec.add_comm, BitVec.add_sub_cancel]

theorem add_ofNat (a : BitVec w) (j k : ℕ) :
    a + BitVec.ofNat w j + BitVec.ofNat w k = a + BitVec.ofNat w (j + k) := by
  rw [BitVec.add_assoc, BitVec.ofNat_add]

theorem add_ofNat_inj {j : ℕ} (hj : j < 2 ^ w) (hk : k < 2 ^ w) :
    a + BitVec.ofNat w j = a + BitVec.ofNat w k ↔ j = k := by
  rw [BitVec.add_right_inj, ← BitVec.toNat_inj, toNat_ofNat_of_lt hj, toNat_ofNat_of_lt hk]

theorem add_mem_range (hk : k < 2 ^ w) : base + BitVec.ofNat w k ∈ range base len ↔ k < len := by
  rw [mem_range, add_sub_self, toNat_ofNat_of_lt hk]

theorem eq_add_ofNat (a base : BitVec w) : a = base + BitVec.ofNat w (a - base).toNat := by
  rw [BitVec.ofNat_toNat, BitVec.setWidth_eq, BitVec.add_comm, BitVec.sub_add_cancel]

theorem exists_of_mem_range (h : a ∈ range base len) :
    ∃ k < len, k < 2 ^ w ∧ a = base + BitVec.ofNat w k :=
  ⟨(a - base).toNat, h, (a - base).isLt, eq_add_ofNat a base⟩

theorem range_add_subset (h : k + n ≤ len) (hw : k + n ≤ 2 ^ w) :
    range (base + BitVec.ofNat w k) n ⊆ range base len := by
  rintro x hx
  obtain ⟨j, hj, -, rfl⟩ := exists_of_mem_range hx
  rw [BitVec.add_assoc, ← BitVec.ofNat_add, add_mem_range (by omega)]
  omega

/-! ### Blocks at different places -/

theorem sub_ofNat {j : ℕ} (a : BitVec w) (h : j ≤ k) :
    a - BitVec.ofNat w j = a - BitVec.ofNat w k + BitVec.ofNat w (k - j) := by
  obtain ⟨i, rfl⟩ : ∃ i, k = j + i := ⟨k - j, by omega⟩
  rw [Nat.add_sub_cancel_left, BitVec.ofNat_add, ← BitVec.sub_sub, BitVec.sub_add_cancel]

theorem range_sub_subset {j : ℕ} (h : j ≤ k) (hlen : k - j + n ≤ len) (hw : len ≤ 2 ^ w) :
    range (a - BitVec.ofNat w j) n ⊆ range (a - BitVec.ofNat w k) len := by
  rw [sub_ofNat a h]
  exact range_add_subset hlen (hlen.trans hw)

theorem disjoint_range_add {j : ℕ} (h : j + n ≤ k) (hw : k + len ≤ 2 ^ w) :
    Disjoint (range (a + BitVec.ofNat w j) n) (range (a + BitVec.ofNat w k) len) := by
  rw [Set.disjoint_left]
  intro x hx hx'
  obtain ⟨i, hi, -, rfl⟩ := exists_of_mem_range hx
  obtain ⟨i', hi', -, heq⟩ := exists_of_mem_range hx'
  rw [add_ofNat, add_ofNat, add_ofNat_inj (by omega) (by omega)] at heq
  omega

/-- The bytes below an address and those from another one above them on. -/
theorem disjoint_range_sub {j : ℕ} (h : j + n ≤ k) (hw : k + len ≤ 2 ^ w) :
    Disjoint (range (a - BitVec.ofNat w k) n) (range (a - BitVec.ofNat w j) len) := by
  rw [sub_ofNat a (show j ≤ k by omega)]
  simpa using disjoint_range_add (w := w) (a := a - BitVec.ofNat w k) (j := 0) (by omega) (by omega)

/-- Where the addresses do not wrap, the range is an interval. -/
theorem mem_range_iff (h : base.toNat + len ≤ 2 ^ w) :
    a ∈ range base len ↔ base.toNat ≤ a.toNat ∧ a.toNat < base.toNat + len := by
  have ha := a.isLt
  rw [mem_range]
  by_cases hle : base.toNat ≤ a.toNat
  · rw [BitVec.toNat_sub_of_le (BitVec.le_def.2 hle)]
    omega
  · rw [BitVec.toNat_sub]
    have hmod : (2 ^ w - base.toNat + a.toNat) % 2 ^ w = 2 ^ w - base.toNat + a.toNat :=
      Nat.mod_eq_of_lt (by omega)
    omega

/-- Two such ranges one behind the other. -/
theorem disjoint_range_of_le (ha : a.toNat + n ≤ 2 ^ w) (hb : b.toNat + len ≤ 2 ^ w)
    (h : a.toNat + n ≤ b.toNat ∨ b.toNat + len ≤ a.toNat) : Disjoint (range a n) (range b len) := by
  rw [Set.disjoint_left]
  intro x hx hx'
  rw [mem_range_iff ha] at hx
  rw [mem_range_iff hb] at hx'
  omega

/-- What is apart from all that may have changed has not changed. -/
theorem frame_apart {S T : Set (BitVec w)} (h : Set.EqOn m' m Sᶜ) (hap : Disjoint T S) : Set.EqOn m' m T :=
  h.mono (Set.subset_compl_iff_disjoint_right.2 hap)

/-! ### Little-endian numbers -/

def readNat (m : Mem w) : ℕ → BitVec w → ℕ
  | 0, _ => 0
  | n + 1, a => (m a).toNat + 256 * readNat m n (a + 1)

theorem readNat_congr (hn : n < 2 ^ w) (h : Set.EqOn m' m (range a n)) :
    readNat m' n a = readNat m n a := by
  induction n generalizing a with
  | zero => rfl
  | succ n ih =>
    have h0 : a ∈ range a (n + 1) := by simp [mem_range]
    have hsub : range (a + 1) n ⊆ range a (n + 1) :=
      range_add_subset (k := 1) (by omega) (by omega)
    rw [readNat, readNat, h h0, ih (by omega) (h.mono hsub)]

theorem readNat_lt (m : Mem w) (n : ℕ) (a : BitVec w) : readNat m n a < 256 ^ n := by
  induction n generalizing a with
  | zero => exact Nat.one_pos
  | succ n ih =>
    have hfirst := (m a).isLt
    have hrest := ih (a + 1)
    rw [readNat, Nat.pow_succ']
    omega

theorem readNat_of_bytes {v : ℕ}
    (h : ∀ i < n, m (a + BitVec.ofNat w i) = BitVec.ofNat 8 (v / 256 ^ i)) :
    readNat m n a = v % 256 ^ n := by
  induction n generalizing a v with
  | zero => rw [readNat, Nat.pow_zero, Nat.mod_one]
  | succ n ih =>
    have hfirst : m a = BitVec.ofNat 8 v := by
      have h0 := h 0 (Nat.zero_lt_succ n)
      rwa [Nat.pow_zero, Nat.div_one, BitVec.add_zero] at h0
    have hrest : readNat m n (a + 1) = v / 256 % 256 ^ n := ih fun i hi => by
      have hi := h (i + 1) (Nat.succ_lt_succ hi)
      rw [Nat.pow_succ', ← Nat.div_div_eq_div_mul, Nat.add_comm, BitVec.ofNat_add,
        ← BitVec.add_assoc] at hi
      exact hi
    have hsplit : v % 256 ^ (n + 1) = v % 256 + 256 * (v / 256 % 256 ^ n) := by
      rw [Nat.pow_succ', Nat.mod_mul]
    rw [readNat, hfirst, hrest, BitVec.toNat_ofNat, hsplit]

/-- The bytes stand in memory from `a` on. -/
def BytesAt (m : Mem w) (a : BitVec w) (bytes : List (BitVec 8)) : Prop :=
  ∀ i (h : i < bytes.length), m (a + BitVec.ofNat w i) = bytes[i]

theorem BytesAt.congr {bytes : List (BitVec 8)} (hb : BytesAt m a bytes) (hlen : bytes.length ≤ 2 ^ w)
    (h : Set.EqOn m' m (range a bytes.length)) : BytesAt m' a bytes := fun i hi =>
  (h ((add_mem_range (by omega)).2 hi)).trans (hb i hi)

theorem BytesAt.append {bytes bytes' : List (BitVec 8)} (h : BytesAt m a (bytes ++ bytes')) :
    BytesAt m a bytes ∧ BytesAt m (a + BitVec.ofNat w bytes.length) bytes' := by
  refine ⟨fun i hi => ?_, fun i hi => ?_⟩
  · have hbyte := h i (by rw [List.length_append]; omega)
    rwa [List.getElem_append_left hi] at hbyte
  · have hbyte := h (bytes.length + i) (by rw [List.length_append]; omega)
    rw [List.getElem_append_right (Nat.le_add_right _ _)] at hbyte
    simpa [add_ofNat] using hbyte
/-- A number among the bytes. -/
theorem BytesAt.readNat_eq {bytes : List (BitVec 8)} (hb : BytesAt m a bytes) {o v : ℕ}
    (hv : ∀ i < n, bytes[o + i]? = some (BitVec.ofNat 8 (v / 256 ^ i))) :
    readNat m n (a + BitVec.ofNat w o) = v % 256 ^ n := by
  refine readNat_of_bytes fun i hi => ?_
  obtain ⟨hlt, heq⟩ := List.getElem?_eq_some_iff.1 (hv i hi)
  rw [add_ofNat, hb _ hlt, heq]

/-! ### Storing numbers -/

/-- `n` bytes of `v`, the lowest one first. -/
def writeNat (m : Mem w) (n : ℕ) (a : BitVec w) (v : ℕ) : Mem w := fun b =>
  if (b - a).toNat < n then BitVec.ofNat 8 (v / 256 ^ (b - a).toNat) else m b

theorem writeNat_of_notMem {v : ℕ} (h : b ∉ range a n) : writeNat m n a v b = m b := if_neg h

theorem eqOn_writeNat (m : Mem w) (n : ℕ) (a : BitVec w) (v : ℕ) :
    Set.EqOn (writeNat m n a v) m (range a n)ᶜ := fun _ h => writeNat_of_notMem h

theorem readNat_writeNat {v : ℕ} (hn : n ≤ 2 ^ w) :
    readNat (writeNat m n a v) n a = v % 256 ^ n := by
  refine readNat_of_bytes fun i hi => ?_
  rw [writeNat, add_sub_self, toNat_ofNat_of_lt (by omega), if_pos hi]

theorem readNat_writeNat_of_disjoint {v : ℕ} (hn : n < 2 ^ w) (h : Disjoint (range a n) (range b len)) :
    readNat (writeNat m len b v) n a = readNat m n a :=
  readNat_congr hn fun _ hx => writeNat_of_notMem (Set.disjoint_left.1 h hx)

theorem writeNat_writeNat {v v' : ℕ} : writeNat (writeNat m n a v') n a v = writeNat m n a v := by
  funext b
  simp only [writeNat]
  split
  · rfl
  · rfl

/-! ### Arrays -/

section
variable {size count : ℕ}

/-- The numbers of an array, with `size` bytes each. -/
def writeArray (m : Mem w) (a : BitVec w) (size : ℕ) (elem : Fin count → ℕ) : Mem w := fun b =>
  if h : (b - a).toNat < size * count then
    BitVec.ofNat 8 (elem ⟨(b - a).toNat / size, Nat.div_lt_of_lt_mul h⟩ / 256 ^ ((b - a).toNat % size))
  else m b

variable {elem : Fin count → ℕ}

theorem writeArray_of_notMem (h : b ∉ range a (size * count)) : writeArray m a size elem b = m b := dif_neg h

theorem writeArray_byte {j : ℕ} (hfit : size * count ≤ 2 ^ w) (i : Fin count) (hj : j < size) :
    writeArray m a size elem (a + BitVec.ofNat w (size * i) + BitVec.ofNat w j) =
      BitVec.ofNat 8 (elem i / 256 ^ j) := by
  have hlt : size * i + j < size * count := by
    calc size * i + j < size * i + size := Nat.add_lt_add_left hj _
      _ = size * (i + 1) := (Nat.mul_succ _ _).symm
      _ ≤ size * count := Nat.mul_le_mul_left _ i.isLt
  have hdiv : (size * i + j) / size = i := by
    rw [Nat.mul_add_div (by omega), Nat.div_eq_of_lt hj, Nat.add_zero]
  have hmod : (size * i + j) % size = j := by
    rw [Nat.mul_add_mod, Nat.mod_eq_of_lt hj]
  rw [add_ofNat, writeArray]
  simp only [add_sub_self, toNat_ofNat_of_lt (hlt.trans_le hfit), dif_pos hlt, hdiv, hmod]

theorem eqOn_writeArray (m : Mem w) (a : BitVec w) (size : ℕ) (elem : Fin count → ℕ) :
    Set.EqOn (writeArray m a size elem) m (range a (size * count))ᶜ := fun _ h => writeArray_of_notMem h

end

/-! ### Several blocks -/

section
variable {blocks : List (BitVec w × ℕ)} {new : Mem w}

def bytesOf (blocks : List (BitVec w × ℕ)) : Set (BitVec w) := {a | ∃ b ∈ blocks, a ∈ range b.1 b.2}

instance : Decidable (a ∈ bytesOf blocks) :=
  inferInstanceAs (Decidable (∃ b ∈ blocks, (a - b.1).toNat < b.2))

/-- The blocks hold what `new` has there. -/
def overwrite (blocks : List (BitVec w × ℕ)) (new m : Mem w) : Mem w := fun a =>
  if a ∈ bytesOf blocks then new a else m a

theorem overwrite_of_notMem (h : a ∉ bytesOf blocks) : overwrite blocks new m a = m a := if_neg h

theorem eqOn_overwrite (blocks : List (BitVec w × ℕ)) (new m : Mem w) :
    Set.EqOn (overwrite blocks new m) m (bytesOf blocks)ᶜ := fun _ h => overwrite_of_notMem h

end

/-! ### Copying -/

def copyMem (m : Mem w) (dst src : BitVec w) (len : ℕ) : Mem w := fun a =>
  if (a - dst).toNat < len then m (src + (a - dst)) else m a

theorem copyMem_of_notMem (h : a ∉ range dst len) : copyMem m dst src len a = m a := if_neg h

theorem copyMem_add (hk : k < len) (hw : k < 2 ^ w) :
    copyMem m dst src len (dst + BitVec.ofNat w k) = m (src + BitVec.ofNat w k) := by
  rw [copyMem, add_sub_self, if_pos]
  rwa [toNat_ofNat_of_lt hw]

end ByteMem
