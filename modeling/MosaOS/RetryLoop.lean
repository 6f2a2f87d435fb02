import MosaOS.Firmware

/-!
# The requests of `Allocate`

`allocateTrace` is the loop of `allocateLoop` that also keeps the requests it makes of the firmware, in
their order, so that they are there also where it halts; where `allocate` returns, they are what a firmware
that records its calls is asked for. `allocateTrace_requests` says what they are: every retry asks for one
page less, from one page further on, and is made exactly when all requests before it were refused.
-/

namespace MosaOS

/-- The arguments of one `AllocatePages`. -/
structure PageRequest where
  pages : SizeT
  addr : SizeT
deriving DecidableEq, Repr

variable {σ : Type}

def allocateTrace (fw : Firmware σ) :
    ℕ → σ → SizeT → SizeT → List PageRequest × Option (SizeT × σ)
  | 0, _, _, _ => ([], none)
  | tries + 1, s, ret, size =>
    let ret := pageOf ret
    let request : PageRequest := ⟨numPages size, ret⟩
    let (status, s) := fw.allocatePages s request.pages request.addr
    if efiError status then
      let ret := ret + 0x1000
      let size := size - 0x1000
      if tries = 0 then ([request], none)
      else if size < 0xffffffffffff0000 then
        let (requests, result) := allocateTrace fw tries s ret size
        (request :: requests, result)
      else ([request], some (ret, s))
    else ([request], some (ret, s))

variable {fw : Firmware σ} {s : σ} {addr size : SizeT}

theorem allocateTrace_result (fw : Firmware σ) (tries : ℕ) (s : σ) (addr size : SizeT) :
    (allocateTrace fw tries s addr size).2 = allocateLoop fw tries s addr size := by
  induction tries generalizing s addr size with
  | zero => rfl
  | succ tries ih =>
    unfold allocateTrace allocateLoop
    simp only
    split
    · split
      · rfl
      split
      · exact ih _ _ _
      · rfl
    · rfl

/-- `size` has not wrapped where the loop goes on. -/
theorem retry_size (hsize : size < 0xffffffffffff0000) (hgo : size - 0x1000 < 0xffffffffffff0000) :
    0x1000 ≤ size.toNat ∧ (size - 0x1000).toNat = size.toNat - 0x1000 := by
  bv_omega

theorem numPages_of_fit (h : size.toNat + 0xfff < 2 ^ 64) :
    (numPages size).toNat = (size.toNat + 0xfff) / 0x1000 := by
  rw [numPages, BitVec.toNat_udiv, BitVec.toNat_add, show (0xfff : SizeT).toNat = 0xfff from rfl,
    show (0x1000 : SizeT).toNat = 0x1000 from rfl, Nat.mod_eq_of_lt h]

/-! ### Which requests are made -/

/-- The firmware that also records what it is asked for. -/
def Firmware.recording (fw : Firmware σ) : Firmware (σ × List PageRequest) where
  allocatePages s numPages memory :=
    let (status, s') := fw.allocatePages s.1 numPages memory
    (status, s', s.2 ++ [⟨numPages, memory⟩])

/-- What `allocate` asks the firmware for are the requests of the trace. -/
theorem allocateLoop_recording (fw : Firmware σ) (tries : ℕ) (s : σ) (log : List PageRequest) (addr size : SizeT) :
    allocateLoop fw.recording tries (s, log) addr size =
      (allocateLoop fw tries s addr size).map fun (ret, s') =>
        (ret, s', log ++ (allocateTrace fw tries s addr size).1) := by
  induction tries generalizing s log addr size with
  | zero => rfl
  | succ tries ih =>
    have hcall : fw.recording.allocatePages (s, log) (numPages size) (pageOf addr) =
      ((fw.allocatePages s (numPages size) (pageOf addr)).1, (fw.allocatePages s (numPages size) (pageOf addr)).2,
        log ++ [⟨numPages size, pageOf addr⟩]) := rfl
    simp only [allocateLoop, allocateTrace, hcall]
    by_cases herr : efiError (fw.allocatePages s (numPages size) (pageOf addr)).1 = true
    · simp only [herr, if_true]
      by_cases htries : tries = 0
      · simp only [htries, if_true, Option.map_none]
      · by_cases hgo : size - 0x1000 < 0xffffffffffff0000
        · simp only [htries, hgo, if_false, if_true, ih, List.append_assoc, List.singleton_append]
        · simp only [htries, hgo, if_false, Option.map_some]
    · simp only [herr, Bool.false_eq_true, if_false, Option.map_some]

/-- The request after `k` refusals. -/
def requestAt (addr size : SizeT) (k : ℕ) : PageRequest :=
  ⟨numPages (size - BitVec.ofNat 64 (0x1000 * k)), page (pageOf addr) k⟩

/-- The state of the firmware after the first `k` requests. -/
def Firmware.after (fw : Firmware σ) (addr size : SizeT) : ℕ → σ → σ
  | 0, s => s
  | k + 1, s =>
    (fw.allocatePages (fw.after addr size k s) (requestAt addr size k).pages (requestAt addr size k).addr).2

/-- The firmware refuses request number `k`, having been asked for those before it. -/
def Firmware.Refuses (fw : Firmware σ) (s : σ) (addr size : SizeT) (k : ℕ) : Prop :=
  efiError (fw.allocatePages (fw.after addr size k s) (requestAt addr size k).pages
    (requestAt addr size k).addr).1 = true

theorem requestAt_zero (addr size : SizeT) : requestAt addr size 0 = ⟨numPages size, pageOf addr⟩ := by
  simp [requestAt, page]

theorem requestAt_of_le (hfit : addr.toNat + size.toNat + 0xfff < 2 ^ 64) {k : ℕ} (hk : 0x1000 * k ≤ size.toNat) :
    (requestAt addr size k).pages = numPages (BitVec.ofNat 64 (size.toNat - 0x1000 * k)) ∧
      (requestAt addr size k).addr.toNat = 0x1000 * (addr.toNat / 0x1000 + k) := by
  have hsize := size.isLt
  constructor
  · refine congrArg numPages (BitVec.eq_of_toNat_eq ?_)
    rw [BitVec.toNat_sub, BitVec.toNat_ofNat, BitVec.toNat_ofNat]
    omega
  · rw [requestAt, page, BitVec.toNat_add, pageOf_toNat, BitVec.toNat_ofNat]
    omega

theorem requestAt_retry (addr size : SizeT) (k : ℕ) :
    requestAt (pageOf addr + 0x1000) (size - 0x1000) k = requestAt addr size (k + 1) := by
  have hsize : size - 0x1000 - BitVec.ofNat 64 (0x1000 * k) = size - BitVec.ofNat 64 (0x1000 * (k + 1)) := by
    rw [BitVec.sub_sub, Nat.mul_succ, Nat.add_comm, BitVec.ofNat_add]
    rfl
  rw [requestAt, requestAt, hsize, pageOf_add, page_succ]

theorem Firmware.after_retry (fw : Firmware σ) (s : σ) (addr size : SizeT) (k : ℕ) :
    fw.after (pageOf addr + 0x1000) (size - 0x1000) k
      (fw.allocatePages s (numPages size) (pageOf addr)).2 = fw.after addr size (k + 1) s := by
  induction k with
  | zero => rw [Firmware.after, Firmware.after, Firmware.after, requestAt_zero]
  | succ k ih =>
    rw [Firmware.after, ih, requestAt_retry]
    rfl

theorem Firmware.refuses_zero (fw : Firmware σ) (s : σ) (addr size : SizeT) :
    fw.Refuses s addr size 0 ↔ efiError (fw.allocatePages s (numPages size) (pageOf addr)).1 = true := by
  rw [Firmware.Refuses, requestAt_zero, Firmware.after]

theorem Firmware.refuses_retry (fw : Firmware σ) (s : σ) (addr size : SizeT) (k : ℕ) :
    fw.Refuses (fw.allocatePages s (numPages size) (pageOf addr)).2 (pageOf addr + 0x1000) (size - 0x1000) k ↔
      fw.Refuses s addr size (k + 1) := by
  rw [Firmware.Refuses, Firmware.Refuses, Firmware.after_retry, requestAt_retry]

theorem getElem?_singleton_iff {α : Type} {x y : α} {k : ℕ} : [x][k]? = some y ↔ k = 0 ∧ y = x := by
  cases k with
  | zero => simp [eq_comm]
  | succ k => simp

/-- A request is made exactly when there are tries left, `size` is not used up and all before were refused. -/
theorem allocateTrace_getElem_iff (hsize : size < 0xffffffffffff0000) {tries k : ℕ} {r : PageRequest} :
    (allocateTrace fw tries s addr size).1[k]? = some r ↔
      k < min tries (size.toNat / 0x1000 + 1) ∧ (∀ j < k, fw.Refuses s addr size j) ∧ r = requestAt addr size k := by
  induction tries generalizing s addr size k with
  | zero => simp [allocateTrace]
  | succ tries ih =>
    have hfirst : k = 0 → (r = ⟨numPages size, pageOf addr⟩ ↔ k < min (tries + 1) (size.toNat / 0x1000 + 1) ∧
        (∀ j < k, fw.Refuses s addr size j) ∧ r = requestAt addr size k) := by
      rintro rfl
      simp [requestAt_zero]
    -- where only one request is made
    have hlast : (∀ l, l + 1 < min (tries + 1) (size.toNat / 0x1000 + 1) → ¬ fw.Refuses s addr size 0) →
        ([⟨numPages size, pageOf addr⟩][k]? = some r ↔ k < min (tries + 1) (size.toNat / 0x1000 + 1) ∧
          (∀ j < k, fw.Refuses s addr size j) ∧ r = requestAt addr size k) := by
      intro hend
      rw [getElem?_singleton_iff]
      cases k with
      | zero => simpa using hfirst rfl
      | succ k =>
        refine iff_of_false (by simp) ?_
        rintro ⟨hk, hrefused, -⟩
        exact hend k hk (hrefused 0 (Nat.succ_pos k))
    rw [allocateTrace]
    simp only
    split
    · rename_i herr
      have hrefused : fw.Refuses s addr size 0 := (fw.refuses_zero s addr size).2 herr
      split
      · subst tries
        exact hlast fun l hl => absurd hl (by omega)
      · split
        · rename_i hgo
          obtain ⟨hle, hsub⟩ := retry_size hsize hgo
          cases k with
          | zero =>
            simp only [List.getElem?_cons_zero, Option.some_inj]
            rw [eq_comm]
            exact hfirst rfl
          | succ k =>
            rw [List.getElem?_cons_succ, ih hgo, requestAt_retry]
            refine and_congr ?_ (and_congr_left fun _ => ?_)
            · rw [hsub]
              omega
            · simp only [fw.refuses_retry]
              constructor
              · intro h j hj
                cases j with
                | zero => exact hrefused
                | succ j => exact h j (by omega)
              · intro h j hj
                exact h (j + 1) (by omega)
        · rename_i hstop
          have hsmall : size.toNat < 0x1000 := by
            by_contra hle
            exact hstop (by bv_omega)
          exact hlast fun l hl => absurd hl (by omega)
    · rename_i hok
      exact hlast fun l _ hrefuses => hok ((fw.refuses_zero s addr size).1 hrefuses)

theorem length_allocateTrace_iff (hsize : size < 0xffffffffffff0000) {tries k : ℕ} :
    k < (allocateTrace fw tries s addr size).1.length ↔
      k < min tries (size.toNat / 0x1000 + 1) ∧ ∀ j < k, fw.Refuses s addr size j := by
  constructor
  · intro hk
    obtain ⟨hlt, hrefused, -⟩ := (allocateTrace_getElem_iff hsize).1 (List.getElem?_eq_getElem hk)
    exact ⟨hlt, hrefused⟩
  · rintro ⟨hk, hrefused⟩
    exact (List.getElem?_eq_some_iff.1 ((allocateTrace_getElem_iff hsize).2 ⟨hk, hrefused, rfl⟩)).1

/-- The requests of the trace are what `allocate` asks of a firmware that records its calls. Number `k` is made
exactly when `k` is below the bound and all requests before it were refused. It is for one page less than the
one before and starts one page further on, so that all end at the same address, and none is made for a `size`
below zero. -/
theorem allocateTrace_requests {σ : Type} (fw : Firmware σ) (s : σ) (addr size : SizeT)
    (hfit : addr.toNat + size.toNat + 0xfff < 2 ^ 64) (hsize : size < 0xffffffffffff0000) :
    (allocateTrace fw 10000 s addr size).2 = allocate fw s addr size ∧
    allocate fw.recording (s, []) addr size = (allocate fw s addr size).map (fun (ret, s') =>
      (ret, s', (allocateTrace fw 10000 s addr size).1)) ∧
    (allocateTrace fw 10000 s addr size).1.length ≤ min 10000 (size.toNat / 0x1000 + 1) ∧
    (∀ k, k < (allocateTrace fw 10000 s addr size).1.length ↔
      k < min 10000 (size.toNat / 0x1000 + 1) ∧ ∀ j < k, fw.Refuses s addr size j) ∧
    ∀ k r, (allocateTrace fw 10000 s addr size).1[k]? = some r →
      r.pages.toNat + k = (size.toNat + 0xfff) / 0x1000 ∧
      r.addr.toNat = 0x1000 * (addr.toNat / 0x1000 + k) ∧
      r.addr.toNat + 0x1000 * r.pages.toNat =
        0x1000 * (addr.toNat / 0x1000 + (size.toNat + 0xfff) / 0x1000) ∧
      0x1000 * k ≤ size.toNat ∧ r.pages = numPages (BitVec.ofNat 64 (size.toNat - 0x1000 * k)) := by
  refine ⟨allocateTrace_result fw 10000 s addr size, allocateLoop_recording fw 10000 s [] addr size, ?_,
    fun k => length_allocateTrace_iff hsize, ?_⟩
  · by_contra hlong
    exact lt_irrefl _ ((length_allocateTrace_iff hsize).1 (Nat.not_le.1 hlong)).1
  intro k r hr
  obtain ⟨hlt, -, rfl⟩ := (allocateTrace_getElem_iff hsize).1 hr
  have hk : 0x1000 * k ≤ size.toNat := by omega
  obtain ⟨hpages, haddr⟩ := requestAt_of_le hfit hk
  have hleft : (BitVec.ofNat 64 (size.toNat - 0x1000 * k)).toNat = size.toNat - 0x1000 * k :=
    Nat.mod_eq_of_lt (by omega)
  have hcount : (requestAt addr size k).pages.toNat + k = (size.toNat + 0xfff) / 0x1000 := by
    rw [hpages, numPages_of_fit (by omega), hleft]
    omega
  refine ⟨hcount, haddr, ?_, hk, hpages⟩
  rw [haddr, ← hcount]
  omega

/-- A firmware that refuses everything. -/
def refuseAll : Firmware Unit := ⟨fun _ _ _ => (0x8000000000000009, ())⟩

/-- Two requests, for two pages and for the second of them. -/
theorem allocateTrace_requests_refuseAll :
    (allocateTrace refuseAll 10000 () 0x100000 0x1800).1.length = 2 ∧
      ∀ k r, (allocateTrace refuseAll 10000 () 0x100000 0x1800).1[k]? = some r →
        r.pages.toNat + k = 2 ∧ r.addr.toNat = 0x1000 * (0x100 + k) := by
  obtain ⟨-, -, hle, hlen, hall⟩ := allocateTrace_requests refuseAll () 0x100000 0x1800 (by decide) (by decide)
  have hrefuses : ∀ j, refuseAll.Refuses () 0x100000 0x1800 j := fun _ => show efiError 0x8000000000000009 = true from rfl
  refine ⟨le_antisymm hle ((hlen 1).2 ⟨by decide, fun j _ => hrefuses j⟩), fun k r hr => ?_⟩
  obtain ⟨hpages, haddr, -⟩ := hall k r hr
  exact ⟨hpages, haddr⟩

end MosaOS
