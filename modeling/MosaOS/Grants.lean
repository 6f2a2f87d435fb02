import MosaOS.AllocatorRuns

/-!
# Everything that `Allocate` ever hands out

`Log` keeps all blocks of a run, those that were freed too. The bitmap is the initial one and these blocks
(`Log.Inv`), so that `granted_spec` bounds what a run can hand out in all. First fit and a bitmap that only
grows mean that the search never goes back: `firstFit_forward`.
-/

namespace MosaOS
open FirstFit BitmapMemoryManager

namespace Session

/-- The block that a call hands out. -/
def grant (s : Session) : Call → Option Block
  | .allocate n => (s.mm.allocate n).bind fun (r, _) => if r.error.toBool then none else some (blockOf r.value n)
  | .free _ _ => none

end Session

structure Log where
  session : Session
  /-- The last one first. -/
  granted : List Block

namespace Log

def step (l : Log) (c : Call) : Option Log :=
  (l.session.step c).map fun s => ⟨s, (l.session.grant c).toList ++ l.granted⟩

def run (l : Log) (calls : List Call) : Option Log := calls.foldlM step l

variable {mm₀ : BitmapMemoryManager} {l l' : Log} {c : Call} {calls : List Call}

/-- Every run of the allocator has a log. -/
theorem exists_run {s : Session} (h : l.session.run calls = some s) :
    ∃ l', l.run calls = some l' ∧ l'.session = s := by
  induction calls generalizing l with
  | nil =>
    cases h
    exact ⟨l, rfl, rfl⟩
  | cons c calls ih =>
    obtain ⟨s₁, hstep, hrun⟩ := Run.cons_eq_some.1 h
    obtain ⟨l', hl', hs⟩ := ih (l := ⟨s₁, (l.session.grant c).toList ++ l.granted⟩) hrun
    exact ⟨l', Run.cons_eq_some.2 ⟨_, Option.map_eq_some_iff.2 ⟨s₁, hstep, rfl⟩, hl'⟩, hs⟩

inductive StepSpec (l : Log) : Call → Log → Prop
  | refused (n : SizeT) (hfit : ∀ t, ¬ l.session.mm.FitsIn n t) : StepSpec l (.allocate n) l
  | granted (n : SizeT) (b : Block) (mm' : BitmapMemoryManager) (hlen : b.len = n.toNat) (hpos : 0 < b.len)
    (hfit : IsLeast {t | l.session.mm.FitsIn n t} b.start) (hm : Marked l.session.mm mm' b.places) :
    StepSpec l (.allocate n) ⟨⟨mm', b :: l.session.live⟩, b :: l.granted⟩
  | freed (f : FrameID) (n : SizeT) :
    StepSpec l (.free f n) ⟨⟨l.session.mm, l.session.live.erase (blockOf f n)⟩, l.granted⟩

theorem step_cases (hI : Session.Inv mm₀ l.session) (h : l.step c = some l') : StepSpec l c l' := by
  obtain ⟨s, hs, rfl⟩ := Option.map_eq_some_iff.1 h
  have hr : l.session.mm.rangeEnd.id.toNat ≤ kFrameCount := by
    rw [hI.rangeEnd]
    exact hI.inRange
  cases c with
  | free f n =>
    cases hI.step_cases hs with
    | freed _ _ hb => exact .freed f n
  | allocate n =>
    have hn : n ≠ 0 := by
      rintro rfl
      simp [Session.step] at hs
    obtain ⟨r, mm', ha, hspec⟩ := allocate_spec hr hn
    simp only [Session.step, if_neg hn, ha, Option.map_some, Option.some.injEq] at hs
    subst hs
    simp only [Session.grant, ha, Option.bind_some]
    cases hspec with
    | noEnoughMemory hfit => exact .refused n hfit
    | success f mm' hfit hm =>
      have hpos : 0 < n.toNat := by bv_omega
      exact .granted n (blockOf f n) mm' rfl hpos hfit hm

/-- The bitmap of a run that started from `mm₀`, and all blocks it handed out. -/
structure Inv (mm₀ : BitmapMemoryManager) (l : Log) : Prop where
  session : Session.Inv mm₀ l.session
  ledger : Ledger mm₀.used l.session.mm.used mm₀.rangeBegin.id.toNat mm₀.rangeEnd.id.toNat l.granted
  used : l.session.mm.used = mm₀.used ∪ held l.granted
  live : l.session.live ⊆ l.granted

theorem Inv.init (hr : mm₀.rangeEnd.id.toNat ≤ kFrameCount) : Inv mm₀ ⟨⟨mm₀, []⟩, []⟩ where
  session := .init hr
  ledger := .nil _ _ _
  used := by simp [held]
  live := by simp

theorem Inv.step (hI : Inv mm₀ l) (h : l.step c = some l') : Inv mm₀ l' := by
  have hsession : Session.Inv mm₀ l'.session := by
    obtain ⟨s, hs, rfl⟩ := Option.map_eq_some_iff.1 h
    exact hI.session.step hs
  cases step_cases hI.session h with
  | refused => exact hI
  | granted n b mm' hlen hpos hfit hm =>
    have hfits := hfit.1
    simp only [Set.mem_ofPred_eq, FitsIn, hI.session.rangeBegin, hI.session.rangeEnd, ← hlen] at hfits
    refine ⟨hsession, ?_, ?_, List.cons_subset_cons b hI.live⟩
    · rw [hm.used]
      exact hI.ledger.alloc hpos hfits
    · rw [hm.used, hI.used, held_cons, Set.union_assoc, Set.union_comm (held l.granted)]
  | freed f n => exact ⟨hsession, hI.ledger, hI.used, fun b hb => hI.live (List.erase_subset hb)⟩

theorem Inv.run (hI : Inv mm₀ l) (h : l.run calls = some l') : Inv mm₀ l' :=
  Run.inv (fun _ _ _ _ hI hstep => hI.step hstep) hI h

/-! ### How much there is to hand out -/

/-- The frames of the range that are clear. -/
def clearFrames (mm : BitmapMemoryManager) : Finset ℕ :=
  (Finset.Ico mm.rangeBegin.id.toNat mm.rangeEnd.id.toNat).filter fun f =>
    mm.getBit ⟨BitVec.ofNat 64 f⟩ = some false

theorem Inv.granted_clear (hI : Inv mm₀ l) {b : Block} (hb : b ∈ l.granted) {f : ℕ} (hf : f ∈ b.places) :
    f ∈ clearFrames mm₀ := by
  obtain ⟨hlo, hhi⟩ := hI.ledger.inside b hb
  have hclear := Set.disjoint_left.1 (hI.ledger.fresh b hb) hf
  have hr := hI.session.inRange
  obtain ⟨hstart, hend⟩ := hf
  refine Finset.mem_filter.2 ⟨Finset.mem_Ico.2 ⟨by omega, by omega⟩, ?_⟩
  rwa [getBit_ofNat_eq_false (by omega)]

/-- Where clients ask for a frame at least and free what they hold, the blocks of a run, freed or not, are pairwise
disjoint, have together no more frames than were clear to begin with, and with the initial bitmap they are the
bitmap: nothing else sets a bit, and no bit is ever cleared. -/
theorem granted_spec (mm₀ : BitmapMemoryManager) (hr : mm₀.rangeEnd.id.toNat ≤ kFrameCount)
    (calls : List Call) (l : Log) (h : run ⟨⟨mm₀, []⟩, []⟩ calls = some l) :
    l.granted.Pairwise (fun b c => Disjoint b.places c.places) ∧
      total l.granted ≤ (clearFrames mm₀).card ∧
      l.session.mm.used = mm₀.used ∪ held l.granted ∧ l.session.live ⊆ l.granted := by
  have hI := (Inv.init hr).run h
  refine ⟨hI.ledger.disjoint, ?_, hI.used, hI.live⟩
  exact total_le_card hI.ledger.disjoint fun b hb f hf => hI.granted_clear hb hf

/-! ### The search does not go back -/

theorem Inv.used_mono (hI : Inv mm₀ l) (h : l.step c = some l') : l.session.mm.used ⊆ l'.session.mm.used := by
  cases step_cases hI.session h with
  | refused => exact subset_rfl
  | granted n b mm' hlen hpos hfit hm =>
    rw [hm.used]
    exact Set.subset_union_left
  | freed => exact subset_rfl

/-- The bitmap of a later state has all bits of an earlier one. -/
theorem Inv.used_run (hI : Inv mm₀ l) (h : l.run calls = some l') : l.session.mm.used ⊆ l'.session.mm.used :=
  (Run.inv (P := fun k => Inv mm₀ k ∧ l.session.mm.used ⊆ k.session.mm.used)
    (fun _ _ _ _ ⟨hk, hu⟩ hstep => ⟨hk.step hstep, hu.trans (hk.used_mono hstep)⟩) ⟨hI, subset_rfl⟩ h).2

/-- What fits later has fitted before, and so have shorter blocks. -/
theorem Inv.fits_of_fits (hI : Inv mm₀ l) (hI' : Inv mm₀ l') (hu : l.session.mm.used ⊆ l'.session.mm.used)
    {n k : SizeT} {t : ℕ} (hfit : l'.session.mm.FitsIn n t) (hk : k.toNat ≤ n.toNat) :
    l.session.mm.FitsIn k t := by
  unfold FitsIn at hfit ⊢
  rw [hI'.session.rangeBegin, hI'.session.rangeEnd] at hfit
  rw [hI.session.rangeBegin, hI.session.rangeEnd]
  exact hfit.mono (fun f hf => hu hf) hk

/-- Nothing of the size of a block fits before its end any more. -/
def Behind (l : Log) (b : Block) : Prop :=
  ∀ (n : SizeT) (t : ℕ), b.len ≤ n.toNat → l.session.mm.FitsIn n t → b.start + b.len ≤ t

/-- The blocks of a run stand in the order of first fit. -/
structure Ordered (mm₀ : BitmapMemoryManager) (l : Log) : Prop where
  inv : Inv mm₀ l
  behind : ∀ b ∈ l.granted, Behind l b
  pairwise : l.granted.Pairwise fun later earlier => earlier.len ≤ later.len → earlier.start + earlier.len ≤ later.start

theorem Ordered.init (hr : mm₀.rangeEnd.id.toNat ≤ kFrameCount) : Ordered mm₀ ⟨⟨mm₀, []⟩, []⟩ :=
  ⟨.init hr, by simp, .nil⟩

theorem Ordered.step (hO : Ordered mm₀ l) (h : l.step c = some l') : Ordered mm₀ l' := by
  have hI := hO.inv
  have hI' := hI.step h
  have hold : ∀ b ∈ l.granted, Behind l' b := fun b hmem n t hn hfit =>
    hO.behind b hmem n t hn (hI.fits_of_fits hI' (hI.used_mono h) hfit le_rfl)
  cases step_cases hI.session h with
  | refused => exact hO
  | freed => exact ⟨hI', hold, hO.pairwise⟩
  | granted n b mm' hlen hpos hfit hm =>
    refine ⟨hI', ?_, List.pairwise_cons.2 ⟨fun d hd hle => ?_, hO.pairwise⟩⟩
    · intro d hd
      rcases List.mem_cons.1 hd with rfl | hd
      · intro k t hk ht
        have hfits : l.session.mm.FitsIn n t := hI.fits_of_fits hI' (hI.used_mono h) ht (hlen ▸ hk)
        have hle : d.start ≤ t := hfit.2 hfits
        -- the frames of the block are set now
        by_contra hlt
        refine ht.free t le_rfl (by omega) ?_
        rw [hm.used]
        exact Or.inr ⟨hle, by omega⟩
      · exact hold d hd
    · exact hO.behind d hd n b.start (hlen ▸ hle) hfit.1

theorem Ordered.run (hO : Ordered mm₀ l) (h : l.run calls = some l') : Ordered mm₀ l' :=
  Run.inv (fun _ _ _ _ hO hstep => hO.step hstep) hO h

/-- Where `Allocate` fails, nothing of that size is free. -/
theorem Inv.failed_iff (hI : Inv mm₀ l) {n : SizeT} (hn : n ≠ 0) :
    l.session.mm.allocate n = some (⟨kNullFrame, makeError .kNoEnoughMemory 46⟩, l.session.mm) ↔
      ∀ t, ¬ l.session.mm.FitsIn n t := by
  have hr : l.session.mm.rangeEnd.id.toNat ≤ kFrameCount := by
    rw [hI.session.rangeEnd]
    exact hI.session.inRange
  obtain ⟨r, mm', ha, hspec⟩ := allocate_spec hr hn
  rw [ha]
  cases hspec with
  | noEnoughMemory hfit => exact iff_of_true rfl hfit
  | success f mm' hfit hm =>
    refine iff_of_false (fun h => ?_) fun hno => hno _ hfit.1
    cases h

/-- In every such run, at any time: where `Allocate` fails it fails for good, for all sizes from that one on, and a
block that is handed out stands behind all blocks handed out before it that are not longer. -/
theorem firstFit_forward (mm₀ : BitmapMemoryManager) (hr : mm₀.rangeEnd.id.toNat ≤ kFrameCount)
    (calls calls' : List Call) (l l' : Log) (h : run ⟨⟨mm₀, []⟩, []⟩ calls = some l)
    (h' : l.run calls' = some l') :
    (∀ n k : SizeT, n ≠ 0 → n.toNat ≤ k.toNat →
      l.session.mm.allocate n = some (⟨kNullFrame, makeError .kNoEnoughMemory 46⟩, l.session.mm) →
      l'.session.mm.allocate k = some (⟨kNullFrame, makeError .kNoEnoughMemory 46⟩, l'.session.mm)) ∧
    l.granted.Pairwise fun later earlier => earlier.len ≤ later.len → earlier.start + earlier.len ≤ later.start := by
  have hO := (Ordered.init hr).run h
  have hI := hO.inv
  have hI' := hI.run h'
  refine ⟨fun n k hn hle hfail => ?_, hO.pairwise⟩
  have hk : k ≠ 0 := by
    rintro rfl
    exact hn (BitVec.eq_of_toNat_eq (Nat.le_zero.1 hle))
  rw [hI'.failed_iff hk]
  intro t ht
  exact (hI.failed_iff hn).1 hfail t (hI.fits_of_fits hI' (hI.used_run h') ht hle)

/-! ### The range `[1, 64)` -/

/-- Frames that were freed are among those that were handed out, and are not handed out again. -/
theorem granted_spec_fragmentedManager : ∃ l,
    run ⟨⟨fragmentedManager, []⟩, []⟩ [.allocate 2, .allocate 3, .free ⟨1⟩ 2, .allocate 1] = some l ∧
      ⟨7, 1⟩ ∈ l.granted ∧ ⟨4, 3⟩ ∈ l.granted ∧ l.granted.Pairwise (fun b c => Disjoint b.places c.places) ∧
      total l.granted ≤ (clearFrames fragmentedManager).card := by
  obtain ⟨s, hs, hlive⟩ := Session.fragmentedManager_run
  obtain ⟨l, hl, rfl⟩ := exists_run (l := ⟨⟨fragmentedManager, []⟩, []⟩) hs
  obtain ⟨hdisj, hsum, -, hsub⟩ := granted_spec fragmentedManager fragmentedManager_inRange _ l hl
  rw [hlive] at hsub
  exact ⟨l, hl, hsub (by simp), hsub (by simp), hdisj, hsum⟩

/-- More frames than the range has are refused before and after other calls. -/
theorem firstFit_forward_emptyManager : ∃ l l', run ⟨⟨emptyManager, []⟩, []⟩ [.allocate 3] = some l ∧
    l.run [.allocate 1] = some l' ∧
      l'.session.mm.allocate 65 = some (⟨kNullFrame, makeError .kNoEnoughMemory 46⟩, l'.session.mm) := by
  obtain ⟨mm', hs, -⟩ := Session.emptyManager_run_allocate (n := 3) (by simp) (by simp)
  obtain ⟨l, hl, -⟩ := exists_run (l := ⟨⟨emptyManager, []⟩, []⟩) hs
  have hI := (Inv.init Session.emptyManager_inRange).run hl
  obtain ⟨s', hs'⟩ := hI.session.step_allocate (n := 1) (by simp)
  have hone : l.session.run [.allocate 1] = some s' := Run.cons_eq_some.2 ⟨s', hs', rfl⟩
  obtain ⟨l', hl', -⟩ := exists_run hone
  have hfail := (hI.failed_iff (n := 64) (by simp)).2 fun t ht => by
    have hlo := ht.lo_le
    have hhi := ht.le_hi
    rw [hI.session.rangeBegin] at hlo
    rw [hI.session.rangeEnd] at hhi
    have hbegin : emptyManager.rangeBegin.id.toNat = 1 := rfl
    have hend : emptyManager.rangeEnd.id.toNat = 64 := rfl
    have hnum : (64 : SizeT).toNat = 64 := rfl
    omega
  have hall := firstFit_forward emptyManager Session.emptyManager_inRange _ _ l l' hl hl'
  exact ⟨l, l', hl, hl', hall.1 64 65 (by simp) (by simp) hfail⟩

end Log

end MosaOS
