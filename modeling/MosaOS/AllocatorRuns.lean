import MosaOS.Allocate

/-!
# Runs of `Allocate` and `Free`

A `Session` is the memory manager with the ledger of the blocks its clients hold: `Allocate` adds the
block it returns, `Free` may be called on a block of the ledger and takes it out. `Session.Inv` ties
the bitmap to the ledger. Since `Free` sets the bits it should clear, it leaves the bitmap as it was
(`free_live`): blocks stay disjoint, but what was freed is never handed out again.
-/

namespace MosaOS
open FirstFit BitmapMemoryManager

inductive Call where
  | allocate (numFrames : SizeT)
  | free (startFrame : FrameID) (numFrames : SizeT)
deriving DecidableEq, Repr

namespace Call

def isFree : Call → Bool
  | allocate _ => false
  | free _ _ => true

end Call

structure Session where
  mm : BitmapMemoryManager
  live : List Block

def blockOf (startFrame : FrameID) (numFrames : SizeT) : Block :=
  ⟨startFrame.id.toNat, numFrames.toNat⟩

namespace Session

/-- One call. Clients ask for at least one frame and free what they hold. -/
def step (s : Session) : Call → Option Session
  | .allocate n =>
    if n = 0 then none
    else
      (s.mm.allocate n).map fun (r, mm) =>
        if r.error.toBool then ⟨mm, s.live⟩ else ⟨mm, blockOf r.value n :: s.live⟩
  | .free f n =>
    if blockOf f n ∈ s.live then
      (s.mm.free f n).map fun (_, mm) => ⟨mm, s.live.erase (blockOf f n)⟩
    else none

def run (s : Session) (calls : List Call) : Option Session := calls.foldlM step s

variable {mm₀ : BitmapMemoryManager} {s s' : Session} {c : Call}

/-- The bitmap and the ledger of a session that started from `mm₀` with no block handed out. -/
structure Inv (mm₀ : BitmapMemoryManager) (s : Session) : Prop where
  inRange : mm₀.rangeEnd.id.toNat ≤ kFrameCount
  rangeBegin : s.mm.rangeBegin = mm₀.rangeBegin
  rangeEnd : s.mm.rangeEnd = mm₀.rangeEnd
  ledger : Ledger mm₀.used s.mm.used mm₀.rangeBegin.id.toNat mm₀.rangeEnd.id.toNat s.live

theorem Inv.init (hr : mm₀.rangeEnd.id.toNat ≤ kFrameCount) : Inv mm₀ ⟨mm₀, []⟩ :=
  ⟨hr, rfl, rfl, .nil _ _ _⟩

/-- Freeing a live block sets bits that are set already. -/
theorem Inv.free_live (h : Inv mm₀ s) {f : FrameID} {n : SizeT} (hb : blockOf f n ∈ s.live) :
    s.mm.free f n = some (makeError .kSuccess 68, s.mm) := by
  have hle := (h.ledger.inside _ hb).2
  have hr := h.inRange
  obtain ⟨mm', hmark, hm⟩ := s.mm.markAllocated_spec (s := f) (n := n) (by
    simp only [blockOf] at hle
    omega)
  rw [hm.eq_of_subset (h.ledger.live_used _ hb)] at hmark
  rw [free_eq_markAllocated, hmark]
  rfl

/-- What a step from a good session does. -/
inductive StepSpec (s : Session) : Call → Session → Prop
  | refused (n : SizeT) (hfit : ∀ t, ¬ s.mm.FitsIn n t) : StepSpec s (.allocate n) s
  | granted (n : SizeT) (f : FrameID) (mm' : BitmapMemoryManager) (hn : n ≠ 0)
    (hfit : IsLeast {t | s.mm.FitsIn n t} f.id.toNat)
    (hm : Marked s.mm mm' (blockOf f n).places) :
    StepSpec s (.allocate n) ⟨mm', blockOf f n :: s.live⟩
  | freed (f : FrameID) (n : SizeT) (hb : blockOf f n ∈ s.live) :
    StepSpec s (.free f n) ⟨s.mm, s.live.erase (blockOf f n)⟩

theorem Inv.step_cases (h : Inv mm₀ s) (hs : s.step c = some s') : StepSpec s c s' := by
  have hr : s.mm.rangeEnd.id.toNat ≤ kFrameCount := by rw [h.rangeEnd]; exact h.inRange
  cases c with
  | allocate n =>
    simp only [step] at hs
    split at hs
    · cases hs
    · rename_i hn
      obtain ⟨r, mm', ha, hspec⟩ := allocate_spec hr hn
      rw [ha] at hs
      cases hspec with
      | noEnoughMemory hfit => cases hs; exact .refused n hfit
      | success f mm' hfit hm => cases hs; exact .granted n f mm' hn hfit hm
  | free f n =>
    simp only [step] at hs
    split at hs
    · rename_i hb
      rw [h.free_live hb] at hs
      cases hs
      exact .freed f n hb
    · cases hs

theorem Inv.step (h : Inv mm₀ s) (hs : s.step c = some s') : Inv mm₀ s' := by
  cases h.step_cases hs with
  | refused => exact h
  | granted n f mm' hn hfit hm =>
    refine ⟨h.inRange, hm.rangeBegin.trans h.rangeBegin, hm.rangeEnd.trans h.rangeEnd, ?_⟩
    have hfits := hfit.1
    simp only [Set.mem_ofPred_eq, FitsIn, h.rangeBegin, h.rangeEnd] at hfits
    rw [hm.used]
    refine h.ledger.alloc ?_ hfits
    show 0 < n.toNat
    bv_omega
  | freed f n hb =>
    have hsub : held (s.live.erase (blockOf f n)) ⊆ held s.live := held_mono List.erase_subset
    exact ⟨h.inRange, h.rangeBegin, h.rangeEnd,
      h.ledger.release h.ledger.init_used (hsub.trans h.ledger.held_subset)⟩

theorem Inv.run (h : Inv mm₀ s) {calls : List Call} (hs : s.run calls = some s') : Inv mm₀ s' :=
  Run.inv (fun _ _ _ _ hI hstep => hI.step hstep) h hs

/-- No call faults in a good session: `step` refuses the calls that clients may not make, no others. -/
theorem Inv.step_eq_none (h : Inv mm₀ s) : s.step c = none ↔
    c = .allocate 0 ∨ ∃ f n, c = .free f n ∧ blockOf f n ∉ s.live := by
  have hr : s.mm.rangeEnd.id.toNat ≤ kFrameCount := by rw [h.rangeEnd]; exact h.inRange
  cases c with
  | allocate n =>
    by_cases hn : n = 0
    · simp [Session.step, hn]
    · obtain ⟨r, mm', ha, -⟩ := allocate_spec hr hn
      simp [Session.step, ha]
  | free f n =>
    by_cases hb : blockOf f n ∈ s.live
    · simp [Session.step, hb, h.free_live hb]
    · simp [Session.step, hb]

theorem Inv.step_allocate (h : Inv mm₀ s) {n : SizeT} (hn : n ≠ 0) :
    ∃ s', s.step (.allocate n) = some s' := by
  refine Option.ne_none_iff_exists'.1 fun hnone => ?_
  rcases h.step_eq_none.1 hnone with heq | ⟨f, k, heq, -⟩
  · cases heq
    exact hn rfl
  · cases heq

/-- A block that fits, with the least start, is the one that is handed out. -/
theorem Inv.step_granted (h : Inv mm₀ s) {n : SizeT} {t : ℕ} (hn : n ≠ 0) (hfit : IsLeast {t | s.mm.FitsIn n t} t) :
    ∃ mm', s.step (.allocate n) = some ⟨mm', ⟨t, n.toNat⟩ :: s.live⟩ ∧
      Marked s.mm mm' (Block.places ⟨t, n.toNat⟩) := by
  have hr : s.mm.rangeEnd.id.toNat ≤ kFrameCount := by rw [h.rangeEnd]; exact h.inRange
  have htop := hfit.1.le_hi
  have ht : (BitVec.ofNat 64 t).toNat = t := by
    rw [BitVec.toNat_ofNat]
    exact Nat.mod_eq_of_lt (by omega)
  obtain ⟨mm', ha, hm⟩ := allocate_of_isLeast hr hn hfit
  refine ⟨mm', ?_, hm⟩
  rw [Session.step, if_neg hn, ha]
  show some (⟨mm', ⟨(BitVec.ofNat 64 t).toNat, n.toNat⟩ :: s.live⟩ : Session) = _
  rw [ht]

/-! ### The range `[1, 64)` over an empty bitmap -/

theorem emptyManager_used : emptyManager.used = ∅ := by
  ext f
  rw [mem_used, WordArray.bit]
  simp [emptyManager]

theorem emptyManager_inRange : emptyManager.rangeEnd.id.toNat ≤ kFrameCount := by decide

theorem emptyManager_run_allocate {n : SizeT} (hn : n ≠ 0) (hle : n.toNat ≤ 63) :
    ∃ mm', run ⟨emptyManager, []⟩ [.allocate n] = some ⟨mm', [blockOf ⟨1⟩ n]⟩ ∧
      Marked emptyManager mm' (blockOf ⟨1⟩ n).places := by
  have hfit : emptyManager.FitsIn n 1 :=
    ⟨le_rfl, by show 1 + n.toNat ≤ 64; omega, fun f _ _ => by simp [emptyManager_used]⟩
  obtain ⟨mm', hs, hm⟩ := (Inv.init emptyManager_inRange).step_granted hn ⟨hfit, fun t ht => ht.lo_le⟩
  exact ⟨mm', Run.cons_eq_some.2 ⟨_, hs, rfl⟩, hm⟩

/-! ### The range `[1, 64)` where frame 3 is taken -/

/-- Two frames fit below frame 3, three only above it. -/
theorem fragmentedManager_run_allocate :
    ∃ mm', run ⟨fragmentedManager, []⟩ [.allocate 2, .allocate 3] = some ⟨mm', [⟨4, 3⟩, ⟨1, 2⟩]⟩ ∧
      mm'.used = Set.Ico 1 7 ∧ mm'.rangeBegin = fragmentedManager.rangeBegin ∧
      mm'.rangeEnd = fragmentedManager.rangeEnd := by
  have hI := Inv.init fragmentedManager_inRange
  have hfit : fragmentedManager.FitsIn 2 1 :=
    ⟨le_rfl, by decide, fun f _ (hf : f < 3) => by
      rw [fragmentedManager_used, Set.mem_singleton_iff]
      omega⟩
  obtain ⟨mm₁, hs, hm⟩ := hI.step_granted (by decide) ⟨hfit, fun t ht => ht.lo_le⟩
  have hused : ∀ f, f ∈ mm₁.used ↔ f = 3 ∨ 1 ≤ f ∧ f < 3 := fun f => by
    simp [hm.used, fragmentedManager_used]
  have hbegin : mm₁.rangeBegin.id.toNat = 1 := congrArg (·.id.toNat) hm.rangeBegin
  have hend : mm₁.rangeEnd.id.toNat = 64 := congrArg (·.id.toNat) hm.rangeEnd
  have hfit₁ : IsLeast {t | mm₁.FitsIn 3 t} 4 := by
    refine ⟨⟨by omega, by simp [hend], fun f hf _ => by rw [hused]; omega⟩, fun t ht => ?_⟩
    have ht1 : 1 ≤ t := hbegin ▸ ht.lo_le
    exact ht.skip ht1 (show 2 < 3 by decide) ((hused 3).2 (by omega))
  obtain ⟨mm₂, hs₁, hm₁⟩ := (hI.step hs).step_granted (by decide) hfit₁
  refine ⟨mm₂, Run.cons_eq_some.2 ⟨_, hs, Run.cons_eq_some.2 ⟨_, hs₁, rfl⟩⟩, ?_,
    hm₁.rangeBegin.trans hm.rangeBegin, hm₁.rangeEnd.trans hm.rangeEnd⟩
  have hlen : BitVec.toNat (3 : SizeT) = 3 := rfl
  ext f
  simp only [hm₁.used, Set.mem_union, hused, Block.mem_places, Set.mem_Ico, hlen]
  omega

/-- The two frames that are freed in the middle are not handed out again. -/
theorem fragmentedManager_run :
    ∃ s, run ⟨fragmentedManager, []⟩ [.allocate 2, .allocate 3, .free ⟨1⟩ 2, .allocate 1] = some s ∧
      s.live = [⟨7, 1⟩, ⟨4, 3⟩] := by
  obtain ⟨mm, hrun, hused, hbegin, hend⟩ := fragmentedManager_run_allocate
  have hI := (Inv.init fragmentedManager_inRange).run hrun
  have hfree : Session.step ⟨mm, [⟨4, 3⟩, ⟨1, 2⟩]⟩ (.free ⟨1⟩ 2) = some ⟨mm, [⟨4, 3⟩]⟩ := by
    have hlive : blockOf ⟨1⟩ 2 ∈ [⟨4, 3⟩, (⟨1, 2⟩ : Block)] := by decide
    rw [step, if_pos hlive, hI.free_live hlive]
    rfl
  have hfit : IsLeast {t | mm.FitsIn 1 t} 7 := by
    simp only [FitsIn, hused, hbegin, hend]
    refine ⟨⟨by decide, by decide, fun f hf _ hmem => ?_⟩, fun t ht => ?_⟩
    · have hlt : f < 7 := hmem.2
      omega
    · have hout := ht.free t le_rfl (Nat.lt_succ_self t)
      have hlo : 1 ≤ t := ht.lo_le
      by_contra hlt
      exact hout ⟨hlo, by omega⟩
  obtain ⟨mm', hs, -⟩ := (hI.step hfree).step_granted (by decide) hfit
  exact ⟨_, Run.append_eq_some.2 ⟨_, hrun, Run.cons_eq_some.2 ⟨_, hfree, Run.cons_eq_some.2 ⟨_, hs, rfl⟩⟩⟩, rfl⟩

/-! ### No double allocation -/

/-- In every reachable state the live blocks are pairwise disjoint, lie in the range, hold no frame
that was taken before the run started, and have all their bits set. -/
theorem noDoubleAllocation (mm₀ : BitmapMemoryManager) (hr : mm₀.rangeEnd.id.toNat ≤ kFrameCount)
    (calls : List Call) (s : Session) (hs : run ⟨mm₀, []⟩ calls = some s) :
    s.live.Pairwise (fun b c => Disjoint b.places c.places) ∧
    (∀ b ∈ s.live, mm₀.rangeBegin.id.toNat ≤ b.start ∧ b.start + b.len ≤ mm₀.rangeEnd.id.toNat) ∧
    (∀ b ∈ s.live, ∀ f ∈ b.places, mm₀.getBit ⟨BitVec.ofNat 64 f⟩ = some false) ∧
    (∀ b ∈ s.live, ∀ f ∈ b.places, s.mm.getBit ⟨BitVec.ofNat 64 f⟩ = some true) := by
  have h := (Inv.init hr).run hs
  refine ⟨h.ledger.disjoint, h.ledger.inside, fun b hb f hf => ?_, fun b hb f hf => ?_⟩
  · have hlt : f < kFrameCount := hf.2.trans_le ((h.ledger.inside b hb).2.trans hr)
    rw [getBit_ofNat_eq_false hlt]
    exact Set.disjoint_left.1 (h.ledger.fresh b hb) hf
  · exact (h.ledger.live_used b hb hf).2

theorem noDoubleAllocation_fragmentedManager :
    ∃ s, run ⟨fragmentedManager, []⟩ [.allocate 2, .allocate 3, .free ⟨1⟩ 2, .allocate 1] = some s ∧
      s.live = [⟨7, 1⟩, ⟨4, 3⟩] ∧ s.live.Pairwise (fun b c => Disjoint b.places c.places) ∧
      ∀ b ∈ s.live, ∀ f ∈ b.places, fragmentedManager.getBit ⟨BitVec.ofNat 64 f⟩ = some false := by
  obtain ⟨s, hs, hlive⟩ := fragmentedManager_run
  obtain ⟨hdisj, -, hfresh, -⟩ := noDoubleAllocation fragmentedManager fragmentedManager_inRange _ s hs
  exact ⟨s, hs, hlive, hdisj, hfresh⟩

/-! ### What `Free` gives back -/

theorem Inv.used_step (h : s.mm.used = mm₀.used ∪ held s.live) (hI : Inv mm₀ s)
    (hc : c.isFree = false) (hs : s.step c = some s') : s'.mm.used = mm₀.used ∪ held s'.live := by
  cases hI.step_cases hs with
  | refused => exact h
  | granted n f mm' hn hfit hm =>
    rw [hm.used, h, held_cons, Set.union_assoc, Set.union_comm (held s.live)]
  | freed => cases hc

/-- A frame is lost when its bit is set though it was clear to begin with and no live block holds it. -/
def Lost (mm₀ : BitmapMemoryManager) (s : Session) (f : ℕ) : Prop :=
  f ∈ s.mm.used ∧ f ∉ mm₀.used ∪ held s.live

theorem Inv.lost_free (hI : Inv mm₀ s) (hc : c.isFree = true) (hs : s.step c = some s') :
    ∃ f, Lost mm₀ s' f := by
  cases hI.step_cases hs with
  | refused => cases hc
  | granted => cases hc
  | freed f n hb =>
    have hpos := hI.ledger.pos _ hb
    exact ⟨f.id.toNat, hI.ledger.live_used _ hb ⟨le_rfl, Nat.lt_add_of_pos_right hpos⟩,
      hI.ledger.start_not_mem hb⟩

theorem Inv.lost_step {f : ℕ} (hf : Lost mm₀ s f) (hI : Inv mm₀ s) (hs : s.step c = some s') :
    Lost mm₀ s' f := by
  obtain ⟨hu, hn⟩ := hf
  cases hI.step_cases hs with
  | refused => exact ⟨hu, hn⟩
  | granted n g mm' hn' hfit hm =>
    refine ⟨by rw [hm.used]; exact Or.inl hu, ?_⟩
    rw [held_cons]
    rintro (h | h | h)
    · exact hn (Or.inl h)
    · exact hfit.1.free f h.1 h.2 hu
    · exact hn (Or.inr h)
  | freed g n hb =>
    refine ⟨hu, ?_⟩
    rintro (h | h)
    · exact hn (Or.inl h)
    · exact hn (Or.inr (held_mono List.erase_subset h))

theorem Inv.lost_run (hI : Inv mm₀ s) {calls : List Call} (hs : s.run calls = some s')
    (hlost : (∃ f, Lost mm₀ s f) ∨ ∃ c ∈ calls, c.isFree = true) : ∃ f, Lost mm₀ s' f := by
  induction calls generalizing s with
  | nil =>
    cases hs
    rcases hlost with h | ⟨c, hc, -⟩
    · exact h
    · cases hc
  | cons c calls ih =>
    obtain ⟨t, ht, hs⟩ := Run.cons_eq_some.1 hs
    refine ih (hI.step ht) hs ?_
    rcases hlost with ⟨f, hf⟩ | ⟨c', hc', hfree⟩
    · exact Or.inl ⟨f, Inv.lost_step hf hI ht⟩
    · rcases List.mem_cons.1 hc' with rfl | hc'
      · exact Or.inl (hI.lost_free hfree ht)
      · exact Or.inr ⟨c', hc', hfree⟩

theorem Inv.used_run (h : s.mm.used = mm₀.used ∪ held s.live) (hI : Inv mm₀ s) {calls : List Call}
    (hc : ∀ c ∈ calls, c.isFree = false) (hs : s.run calls = some s') :
    s'.mm.used = mm₀.used ∪ held s'.live :=
  (Run.inv (P := fun s => Inv mm₀ s ∧ s.mm.used = mm₀.used ∪ held s.live)
    (fun _ _ _ hi ⟨hI, hu⟩ hstep => ⟨hI.step hstep, hI.used_step hu (hc _ hi) hstep⟩)
    ⟨hI, h⟩ hs).2

theorem used_allocate_free {mm mm' mm'' : BitmapMemoryManager} {f : FrameID} {n : SizeT} {e e' : Error}
    (hr : mm.rangeEnd.id.toNat ≤ kFrameCount) (hn : n ≠ 0)
    (ha : mm.allocate n = some (⟨f, e⟩, mm')) (he : e.code = .kSuccess)
    (hf : mm'.free f n = some (e', mm'')) :
    mm''.rangeEnd = mm.rangeEnd ∧ f.id.toNat ∈ mm''.used ∧ f.id.toNat ∉ mm.used := by
  cases AllocateSpec.of_allocate hr hn ha with
  | noEnoughMemory => exact absurd he (by decide)
  | success f mm' hfit hm =>
    have hle := hfit.1.le_hi
    have hpos : 0 < n.toNat := by bv_omega
    have hmem : f.id.toNat ∈ Set.Ico f.id.toNat (f.id.toNat + n.toNat) :=
      ⟨le_rfl, Nat.lt_add_of_pos_right hpos⟩
    obtain ⟨mm₂, hmark, hm₂⟩ := mm'.markAllocated_spec (s := f) (n := n) (by omega)
    rw [free_eq_markAllocated, hmark] at hf
    cases hf
    refine ⟨hm₂.rangeEnd.trans hm.rangeEnd, ?_, hfit.1.free _ le_rfl hmem.2⟩
    rw [hm₂.used]
    exact Or.inr hmem

/-- `Free` gives nothing back. The set of used frames is what the initial frames and the live blocks
say exactly in the runs that never call `Free`; freeing a block that was just allocated never restores
the bitmap, and the next `Allocate` never finds that block again. -/
theorem free_leaks (mm₀ : BitmapMemoryManager) (hr : mm₀.rangeEnd.id.toNat ≤ kFrameCount) :
    (∀ calls s, run ⟨mm₀, []⟩ calls = some s →
      (s.mm.used = mm₀.used ∪ held s.live ↔ ∀ c ∈ calls, c.isFree = false)) ∧
    (∀ n f e mm' e' mm'', n ≠ 0 → mm₀.allocate n = some (⟨f, e⟩, mm') → e.code = .kSuccess →
      mm'.free f n = some (e', mm'') →
      mm'' ≠ mm₀ ∧ ∀ r mm₃, mm''.allocate n = some (r, mm₃) → r.error.code = .kSuccess →
        r.value ≠ f) := by
  refine ⟨fun calls s hs => ⟨fun hu c hc => ?_, fun hc => ?_⟩, ?_⟩
  · by_contra hfree
    have hlost : ∃ c ∈ calls, c.isFree = true := ⟨c, hc, by simpa using hfree⟩
    obtain ⟨f, hf, hnf⟩ := (Inv.init hr).lost_run hs (Or.inr hlost)
    rw [hu] at hf
    exact hnf hf
  · refine Inv.used_run ?_ (Inv.init hr) hc hs
    simp [held]
  · intro n f e mm' e' mm'' hn ha he hf
    obtain ⟨hend, hset, hclear⟩ := used_allocate_free hr hn ha he hf
    refine ⟨fun h => hclear (h ▸ hset), fun r mm₃ ha' he' => ?_⟩
    rintro rfl
    have hpos : 0 < n.toNat := by bv_omega
    cases AllocateSpec.of_allocate (by rw [hend]; exact hr) hn ha' with
    | noEnoughMemory => exact absurd he' (by decide)
    | success f mm₃ hfit hm => exact hfit.1.free _ le_rfl (Nat.lt_add_of_pos_right hpos) hset

theorem free_leaks_fragmentedManager :
    (∃ s, run ⟨fragmentedManager, []⟩ [.allocate 2, .allocate 3] = some s ∧
      s.mm.used = fragmentedManager.used ∪ held s.live) ∧
    ∃ s, run ⟨fragmentedManager, []⟩ [.allocate 2, .allocate 3, .free ⟨1⟩ 2, .allocate 1] = some s ∧
      s.mm.used ≠ fragmentedManager.used ∪ held s.live := by
  obtain ⟨hruns, -⟩ := free_leaks fragmentedManager fragmentedManager_inRange
  obtain ⟨mm, hrun, -⟩ := fragmentedManager_run_allocate
  obtain ⟨s, hs, -⟩ := fragmentedManager_run
  refine ⟨⟨_, hrun, (hruns _ _ hrun).2 (by decide)⟩, s, hs, fun hu => ?_⟩
  have hfree := (hruns _ s hs).1 hu (.free ⟨1⟩ 2) (by simp)
  exact Bool.noConfusion hfree

/-- Allocating one frame out of an empty bitmap and freeing it again leaves its bit set, with no live
block left and no bit set before. -/
theorem free_keeps_bit :
    ∃ s, run ⟨emptyManager, []⟩ [.allocate 1, .free ⟨1⟩ 1] = some s ∧ s.live = [] ∧
      s.mm.getBit ⟨1⟩ = some true ∧ emptyManager.getBit ⟨1⟩ = some false ∧
      s.mm.used ≠ emptyManager.used ∪ held s.live := by
  obtain ⟨mm', h, hm⟩ := emptyManager_run_allocate (n := 1) (by decide) (by decide)
  have hI := (Inv.init emptyManager_inRange).run h
  have hmem : 1 ∈ mm'.used := by
    rw [hm.used]
    exact Or.inr ⟨le_rfl, by decide⟩
  have hfree : Session.step ⟨mm', [blockOf ⟨1⟩ 1]⟩ (.free ⟨1⟩ 1) = some ⟨mm', []⟩ := by
    simp only [step, List.mem_singleton, if_pos, hI.free_live (List.mem_singleton.2 rfl)]
    rfl
  have hrun : run ⟨emptyManager, []⟩ [.allocate 1, .free ⟨1⟩ 1] = some ⟨mm', []⟩ :=
    Run.append_eq_some.2 ⟨_, h, Run.cons_eq_some.2 ⟨_, hfree, rfl⟩⟩
  refine ⟨⟨mm', []⟩, hrun, rfl, ?_, ?_, ?_⟩
  · rwa [getBit_eq_true (by decide)]
  · rw [getBit_eq_false (by decide), emptyManager_used]
    exact Set.notMem_empty _
  · rw [emptyManager_used]
    intro hu
    rw [hu] at hmem
    simp [held] at hmem

end Session

end MosaOS
