import MosaOS.Lib.NextList
import MosaOS.Screen
import Mathlib.Data.List.Induction

/-!
# The list of screens (`ScreenManager`, `kernel/screen.cpp`)

The screens hang together through `next`, wherever they are in memory. `setScreen` keeps the order in
which they are added (`setScreen_keeps_order`). `InitializeScreen` relies on what is left of an earlier
list: the constructor of `ScreenManager` adds the first screen to it (`initializeScreen_fresh_iff`).
-/

namespace MosaOS
open NextList

structure VideoInfo where
  fb : SizeT
  fbSize : SizeT
  xAxis : BitVec 32
  yAxis : BitVec 32
  ppsl : BitVec 32
deriving DecidableEq, Repr

/-- The bytes of a string literal before its terminator. -/
def cString (s : String) : List (BitVec 8) := s.toList.map fun c => BitVec.ofNat 8 c.toNat

/-- A screen, its pointers to type `P`. -/
structure ScreenNode (P : Type) where
  name : Fin 100 → BitVec 8
  fb : SizeT
  fbSize : SizeT
  xAxis : BitVec 32
  yAxis : BitVec 32
  ppsl : BitVec 32
  next : Option P

/-- `strncpy` fills the 99 bytes that it may write with zeros. -/
def ScreenNode.setName {P : Type} (scr : ScreenNode P) (str : List (BitVec 8)) : ScreenNode P :=
  { scr with name := fun k => if k.val < 99 then str.getD k 0 else 0 }

/-- The constructor. -/
def ScreenNode.ofInfo {P : Type} (vinfo : VideoInfo) (name : List (BitVec 8)) : ScreenNode P :=
  ScreenNode.setName
    { name := fun _ => 0
      fb := vinfo.fb
      fbSize := vinfo.fbSize
      xAxis := vinfo.xAxis
      yAxis := vinfo.yAxis
      ppsl := vinfo.ppsl
      next := none } name

def ScreenNode.toScreen (scr : ScreenNode ScreenPtr) : Screen :=
  ⟨scr.fb, scr.fbSize, scr.xAxis, scr.yAxis, scr.ppsl, scr.next⟩

/-- The one field of the manager, and the screens in memory. -/
structure ScreenList (P : Type) where
  screens : Option P
  heap : P → ScreenNode P

/-- The manager of the two static screens. -/
abbrev ScreenManager := ScreenList ScreenPtr

namespace ScreenList
variable {P : Type}

def deref (sl : ScreenList ScreenPtr) (ptr : ScreenPtr) : Screen := (sl.heap ptr).toScreen

def getNext (sl : ScreenList P) (ptr : P) : Option P := (sl.heap ptr).next

/-- `some none` is `NULL`. The loop is cut off after `n` tests. -/
def getLast (n : ℕ) (sl : ScreenList P) : Option (Option P) :=
  match sl.screens with
  | none => some none
  | some ptr =>
    match sl.getNext ptr with
    | none => some (some ptr)
    | some _ => (lastFrom sl.getNext n ptr).map some

def getScreen (sl : ScreenList P) (index : ℤ) : Option P :=
  (List.range index.toNat).foldl (fun ptr _ => ptr.bind sl.getNext) sl.screens

section
variable [DecidableEq P]

def store (sl : ScreenList P) (scr : ScreenNode P) (ptr : P) : ScreenList P :=
  { sl with heap := Function.update sl.heap ptr scr }

def setNext (sl : ScreenList P) (ptr next : P) : ScreenList P :=
  sl.store { sl.heap ptr with next := some next } ptr

/-- It returns `s`. -/
def setScreen (n : ℕ) (sl : ScreenList P) (s : P) : Option (ScreenList P) := do
  match ← sl.getLast n with
  | none => some { sl with screens := some s }
  | some ptr => some (sl.setNext ptr s)

/-- `ScreenManager(Screen *s)` sets no field before it calls `setScreen`. -/
def initializeScreen (n : ℕ) (framebufferBuf backbufferBuf : P) (back_fb : SizeT) (vinfo : VideoInfo)
    (sl : ScreenList P) : Option (ScreenList P) := do
  let sl := sl.store (ScreenNode.ofInfo vinfo (cString "FrameBuffer")) framebufferBuf
  let sl ← sl.setScreen n framebufferBuf
  let backInfo := { vinfo with fb := back_fb }
  let sl := sl.store (ScreenNode.ofInfo backInfo (cString "BackBuffer")) backbufferBuf
  sl.setScreen n backbufferBuf

end

variable {sl sl' : ScreenList P} {ptr s last front back : P} {n : ℕ} {l : List P}

theorem getLast_of_none (h : sl.screens = none) : sl.getLast n = some none := by
  rw [getLast, h]

theorem getLast_of_getNext (h : sl.screens = some ptr) (hnext : sl.getNext ptr = none) :
    sl.getLast n = some (some ptr) := by
  rw [getLast, h]
  simp only [hnext]

theorem getLast_circle (h : sl.screens = some ptr) (hnext : sl.getNext ptr = some ptr) :
    sl.getLast n = none := by
  rw [getLast, h]
  simp only [hnext, lastFrom_circle hnext]
  rfl

theorem getLast_ne_none (h : sl.screens = some ptr) : sl.getLast n ≠ some none := by
  rw [getLast, h]
  simp only
  cases sl.getNext ptr with
  | none => simp
  | some q =>
    cases lastFrom sl.getNext n ptr with
    | none => simp
    | some last => simp

/-- The test before the loop changes nothing: the loop ends at its first test. -/
theorem getLast_of_some (h : sl.screens = some ptr) :
    sl.getLast (n + 1) = (lastFrom sl.getNext (n + 1) ptr).map some := by
  rw [getLast, h]
  simp only
  cases hnext : sl.getNext ptr with
  | none => rw [lastFrom_of_none hnext]; rfl
  | some q => rfl

theorem getLast_of_linked (h : Linked sl.getNext sl.screens (l ++ [last])) (hn : l.length < n) :
    sl.getLast n = some (some last) := by
  obtain ⟨k, rfl⟩ : ∃ k, n = k + 1 := ⟨n - 1, by omega⟩
  obtain ⟨p, hp⟩ : ∃ p, sl.screens = some p := by
    cases l with
    | nil => exact ⟨last, h.1⟩
    | cons p l => exact ⟨p, h.1⟩
  rw [hp] at h
  rw [getLast_of_some hp, h.lastFrom hn]
  rfl

theorem getScreen_of_linked (h : Linked sl.getNext sl.screens l) (i : ℤ) :
    sl.getScreen i = l[i.toNat]? := by
  rw [← h.getElem?, getScreen, List.foldl_const, List.length_range]

variable [DecidableEq P]

theorem getNext_store (scr : ScreenNode P) :
    (sl.store scr ptr).getNext = Function.update sl.getNext ptr scr.next := by
  funext p
  unfold getNext store
  by_cases hp : p = ptr
  · subst hp
    simp only [Function.update_self]
  · simp only [Function.update_of_ne hp]

theorem getNext_setNext : (sl.setNext ptr s).getNext = Function.update sl.getNext ptr (some s) :=
  getNext_store _

theorem heap_setNext (p : P) : (sl.setNext ptr s).heap p =
    if ptr = p then { sl.heap p with next := some s } else sl.heap p := by
  unfold setNext store
  by_cases hp : ptr = p
  · subst hp
    rw [if_pos rfl]
    exact Function.update_self ..
  · rw [if_neg hp]
    exact Function.update_of_ne (Ne.symm hp) ..

theorem setScreen_of_none (h : sl.screens = none) :
    sl.setScreen n s = some { sl with screens := some s } := by
  rw [setScreen, getLast_of_none h]
  rfl

theorem setScreen_of_last (h : sl.getLast n = some (some last)) :
    sl.setScreen n s = some (sl.setNext last s) := by
  rw [setScreen, h]
  rfl

/-! ### Screens that are added -/

/-- `sl` is the list of `ss`, and nothing else has changed in memory. -/
structure Holds (heap : P → ScreenNode P) (ss : List P) (sl : ScreenList P) : Prop where
  linked : Linked sl.getNext sl.screens ss
  others : ∀ p ∉ ss, sl.heap p = heap p

/-- `setScreen` adds a screen behind the last one, and changes `next` of that one only. -/
theorem Holds.setScreen {heap : P → ScreenNode P} {ss : List P} (h : Holds heap ss sl)
    (hdistinct : (ss ++ [s]).Nodup) (hnext : (heap s).next = none) (hn : ss.length ≤ n) :
    ∃ sl', sl.setScreen n s = some sl' ∧ Holds heap (ss ++ [s]) sl' ∧
      ∀ p, sl'.heap p = if ss.getLast? = some p then { sl.heap p with next := some s } else sl.heap p := by
  have hs : s ∉ ss := by
    intro hmem
    exact (List.nodup_append.1 hdistinct).2.2 s hmem s (List.mem_singleton_self s) rfl
  have hnone : sl.getNext s = none := by
    rw [getNext, h.others s hs, hnext]
  rcases List.eq_nil_or_concat' ss with rfl | ⟨l, last, rfl⟩
  · refine ⟨_, setScreen_of_none h.linked, ⟨⟨rfl, hnone⟩, fun p _ => h.others p List.not_mem_nil⟩,
      fun p => ?_⟩
    rw [List.getLast?_nil, if_neg (by simp)]
  · have hlast := getLast_of_linked h.linked (n := n) (by rw [List.length_append] at hn; exact hn)
    have hdistinct' : (l ++ [last, s]).Nodup := by
      rwa [List.append_assoc] at hdistinct
    refine ⟨_, setScreen_of_last hlast, ⟨?_, fun p hp => ?_⟩, fun p => ?_⟩
    · rw [getNext_setNext, List.append_assoc]
      exact h.linked.snoc hdistinct' hnone
    · have hne : last ≠ p := by
        rintro rfl
        exact hp (by simp)
      rw [heap_setNext, if_neg hne]
      exact h.others p fun hmem => hp (List.mem_append_left _ hmem)
    · rw [heap_setNext, List.getLast?_concat]
      by_cases hp : last = p
      · rw [if_pos hp, if_pos (congrArg some hp)]
      · rw [if_neg hp, if_neg fun heq => hp (Option.some.inj heq)]

theorem run_holds {heap : P → ScreenNode P} {ss : List P} (hdistinct : ss.Nodup)
    (hnext : ∀ s ∈ ss, (heap s).next = none) (hn : ss.length ≤ n) :
    ∃ sl, ss.foldlM (ScreenList.setScreen n) ⟨none, heap⟩ = some sl ∧ Holds heap ss sl := by
  induction ss using List.reverseRecOn with
  | nil => exact ⟨_, rfl, rfl, fun p _ => rfl⟩
  | append_singleton ss s ih =>
    rw [List.length_append] at hn
    obtain ⟨sl, hrun, hsl⟩ := ih (List.nodup_append.1 hdistinct).1
      (fun s hs => hnext s (List.mem_append_left _ hs)) ((Nat.le_add_right _ _).trans hn)
    obtain ⟨sl', hset, hsl', -⟩ := hsl.setScreen hdistinct
      (hnext s (List.mem_append_right _ (List.mem_singleton_self s))) ((Nat.le_add_right _ _).trans hn)
    exact ⟨sl', Run.append_eq_some.2 ⟨sl, hrun, Run.cons_eq_some.2 ⟨sl', hset, rfl⟩⟩, hsl'⟩

/-- Screens that are added to an empty list, no two of them the same and none of them with a successor,
make up a list without a circle in the order they come in. All the calls return, and each changes
nothing but `next` of the screen before. -/
theorem setScreen_keeps_order (heap : P → ScreenNode P) (ss : List P) (hdistinct : ss.Nodup)
    (hnext : ∀ s ∈ ss, (heap s).next = none) :
    ∃ n sl, ss.foldlM (ScreenList.setScreen n) ⟨none, heap⟩ = some sl ∧ Acyclic sl.getNext sl.screens ∧
      (∀ i : ℤ, 0 ≤ i → sl.getScreen i = ss[i.toNat]?) ∧
      ∀ before s after, ss = before ++ s :: after → ∃ sl₁ sl₂,
        before.foldlM (ScreenList.setScreen n) ⟨none, heap⟩ = some sl₁ ∧ sl₁.setScreen n s = some sl₂ ∧
        ∀ p, sl₂.heap p =
          if before.getLast? = some p then { sl₁.heap p with next := some s } else sl₁.heap p := by
  obtain ⟨sl, hrun, hsl⟩ := run_holds hdistinct hnext (le_refl ss.length)
  refine ⟨ss.length, sl, hrun, hsl.linked.acyclic, fun i _ => getScreen_of_linked hsl.linked i, ?_⟩
  rintro before s after rfl
  have hle : before.length ≤ (before ++ s :: after).length := by
    rw [List.length_append]
    exact Nat.le_add_right _ _
  have hsub : (before ++ [s]).Sublist (before ++ s :: after) :=
    (List.Sublist.refl before).append (List.Sublist.cons_cons s (List.nil_sublist after))
  obtain ⟨sl₁, hrun₁, hsl₁⟩ := run_holds (List.nodup_append.1 hdistinct).1
    (fun s hs => hnext s (List.mem_append_left _ hs)) hle
  obtain ⟨sl₂, hset, -, hframe⟩ := hsl₁.setScreen (hdistinct.sublist hsub)
    (hnext s (List.mem_append_right _ (List.mem_cons_self ..))) hle
  exact ⟨sl₁, sl₂, hrun₁, hset, hframe⟩

/-- A screen in memory that nothing has been written to. -/
def zeroNode {P : Type} : ScreenNode P := ⟨fun _ => 0, 0, 0, 0, 0, 0, none⟩

theorem setScreen_keeps_order_three : ∃ n sl,
    ([5, 3, 8] : List ℕ).foldlM (ScreenList.setScreen n) ⟨none, fun _ => zeroNode⟩ = some sl ∧
      sl.getScreen 0 = some 5 ∧ sl.getScreen 1 = some 3 ∧ sl.getScreen 2 = some 8 ∧
      sl.getScreen 3 = none := by
  obtain ⟨n, sl, hrun, -, hget, -⟩ := setScreen_keeps_order (fun _ => zeroNode) ([5, 3, 8] : List ℕ)
    (by decide) (fun _ _ => rfl)
  exact ⟨n, sl, hrun, hget 0 (by decide), hget 1 (by decide), hget 2 (by decide), hget 3 (by decide)⟩

instance : Fintype ScreenPtr := ⟨{.framebufferBuf, .backbufferBuf}, fun ptr => by cases ptr <;> decide⟩

/-- Of the two static screens, the last one is found at the second test at the latest. -/
theorem getLast_two {sm : ScreenManager} {r : Option ScreenPtr} (h : sm.getLast n = some r) : sm.getLast 2 = some r := by
  cases hscreens : sm.screens with
  | none =>
    rw [getLast_of_none hscreens] at h ⊢
    exact h
  | some ptr =>
    cases hnext : sm.getNext ptr with
    | none =>
      rw [getLast_of_getNext hscreens hnext] at h ⊢
      exact h
    | some q =>
      have hloop : ∀ k, sm.getLast k = (lastFrom sm.getNext k ptr).map some := fun k => by
        simp only [getLast, hscreens, hnext]
      rw [hloop] at h ⊢
      obtain ⟨last, hlast, rfl⟩ := Option.map_eq_some_iff.1 h
      rw [show 2 = Fintype.card ScreenPtr from rfl, lastFrom_card hlast]
      rfl

/-! ### What `InitializeScreen` finds -/

theorem screens_setScreen (h : sl.screens = some ptr) (hset : sl.setScreen n s = some sl') :
    sl'.screens = some ptr := by
  obtain ⟨last, hlast, hset⟩ := Option.bind_eq_some_iff.1 hset
  cases last with
  | none => exact absurd hlast (getLast_ne_none h)
  | some last =>
    cases hset
    exact h

section
variable (back_fb : SizeT) (vinfo : VideoInfo) (hne : front ≠ back)
include hne

/-- On an empty list, the two screens are added one after the other. -/
theorem initializeScreen_of_none (h : sl.screens = none) (n : ℕ) :
    ∃ sl', sl.initializeScreen n front back back_fb vinfo = some sl' ∧
      Linked sl'.getNext sl'.screens [front, back] := by
  obtain ⟨sl₁, hfirst, hscreens, hfront⟩ : ∃ sl₁,
      (sl.store (ScreenNode.ofInfo vinfo (cString "FrameBuffer")) front).setScreen n front = some sl₁ ∧
        sl₁.screens = some front ∧ sl₁.getNext front = none :=
    ⟨_, setScreen_of_none h, rfl, congrFun (getNext_store _) front |>.trans (Function.update_self ..)⟩
  have hnext : (sl₁.store (ScreenNode.ofInfo { vinfo with fb := back_fb } (cString "BackBuffer"))
      back).getNext front = none := by
    rw [getNext_store, Function.update_of_ne hne, hfront]
  have hback : (sl₁.store (ScreenNode.ofInfo { vinfo with fb := back_fb } (cString "BackBuffer"))
      back).getNext back = none := by
    rw [getNext_store, Function.update_self]
    rfl
  refine ⟨_, Option.bind_eq_some_iff.2
    ⟨sl₁, hfirst, setScreen_of_last (getLast_of_getNext hscreens hnext)⟩, ?_⟩
  rw [getNext_setNext]
  exact Linked.snoc (l := []) ⟨hscreens, hnext⟩ (by simp [hne]) hback

/-- On a list with the first screen on it, that screen is hung on itself. -/
theorem initializeScreen_of_front (h : sl.screens = some front) (n : ℕ) :
    sl.initializeScreen n front back back_fb vinfo = none := by
  have hnone : (sl.store (ScreenNode.ofInfo vinfo (cString "FrameBuffer")) front).getNext front = none := by
    rw [getNext_store, Function.update_self]
    rfl
  obtain ⟨sl₁, hfirst, hscreens, hfront⟩ : ∃ sl₁,
      (sl.store (ScreenNode.ofInfo vinfo (cString "FrameBuffer")) front).setScreen n front = some sl₁ ∧
        sl₁.screens = some front ∧ sl₁.getNext front = some front :=
    ⟨_, setScreen_of_last (getLast_of_getNext h hnone), h,
      congrFun getNext_setNext front |>.trans (Function.update_self ..)⟩
  have hcircle : (sl₁.store (ScreenNode.ofInfo { vinfo with fb := back_fb } (cString "BackBuffer"))
      back).getNext front = some front := by
    rw [getNext_store, Function.update_of_ne hne, hfront]
  have hlast : (sl₁.store (ScreenNode.ofInfo { vinfo with fb := back_fb } (cString "BackBuffer"))
      back).getLast n = none := getLast_circle hscreens hcircle
  rw [initializeScreen, hfirst, Option.bind_eq_bind, Option.bind_some]
  simp only
  rw [setScreen, hlast]
  rfl

end

/-- `InitializeScreen` returns the list of its two screens exactly when it finds an empty list, whatever
else is in memory. -/
theorem initializeScreen_fresh_iff (hne : front ≠ back) (back_fb : SizeT) (vinfo : VideoInfo)
    (sl : ScreenList P) :
    (∃ n sl', sl.initializeScreen n front back back_fb vinfo = some sl' ∧
      sl'.getScreen 0 = some front ∧ sl'.getScreen 1 = some back ∧
      ∀ i : ℤ, 2 ≤ i → sl'.getScreen i = none) ↔ sl.screens = none := by
  constructor
  · rintro ⟨n, sl', hinit, hzero, -, -⟩
    by_contra hstale
    obtain ⟨ptr, hptr⟩ := Option.ne_none_iff_exists'.1 hstale
    obtain ⟨sl₁, hfirst, hsecond⟩ := Option.bind_eq_some_iff.1 hinit
    have hkept : ∀ (sl : ScreenList P) scr p, sl.screens = some ptr → (sl.store scr p).screens = some ptr :=
      fun _ _ _ h => h
    have hscreens₁ : sl₁.screens = some ptr := screens_setScreen (hkept _ _ _ hptr) hfirst
    have hscreens : sl'.screens = some ptr := screens_setScreen (hkept _ _ _ hscreens₁) hsecond
    obtain rfl : ptr = front := Option.some.inj (hscreens.symm.trans hzero)
    rw [initializeScreen_of_front back_fb vinfo hne hptr] at hinit
    cases hinit
  · intro hnone
    obtain ⟨sl', hinit, hlinked⟩ := initializeScreen_of_none back_fb vinfo hne hnone 0
    refine ⟨0, sl', hinit, getScreen_of_linked hlinked 0, getScreen_of_linked hlinked 1, fun i hi => ?_⟩
    rw [getScreen_of_linked hlinked, List.getElem?_eq_none]
    show 2 ≤ i.toNat
    omega

/-- The statics before they are used. -/
def zeroed : ScreenManager := ⟨none, fun _ => zeroNode⟩

def plainMode : VideoInfo := ⟨0x80000000, 1920000, 800, 600, 800⟩

theorem initializeScreen_fresh_iff_empty : ∃ n sl,
    zeroed.initializeScreen n .framebufferBuf .backbufferBuf 0x200000 plainMode = some sl ∧
      sl.getScreen 0 = some .framebufferBuf ∧ sl.getScreen 1 = some .backbufferBuf ∧
      ∀ i : ℤ, 2 ≤ i → sl.getScreen i = none :=
  (initializeScreen_fresh_iff (by decide) 0x200000 plainMode zeroed).2 rfl

/-- The second call never returns. -/
theorem initializeScreen_twice : ∃ sl,
    zeroed.initializeScreen 1 .framebufferBuf .backbufferBuf 0x200000 plainMode = some sl ∧
      ∀ n, sl.initializeScreen n .framebufferBuf .backbufferBuf 0x200000 plainMode = none := by
  have hne : ScreenPtr.framebufferBuf ≠ .backbufferBuf := by decide
  have hempty : zeroed.screens = none := rfl
  obtain ⟨sl, hinit, hlinked⟩ := initializeScreen_of_none 0x200000 plainMode hne hempty 1
  exact ⟨sl, hinit, initializeScreen_of_front 0x200000 plainMode hne hlinked.1⟩

end ScreenList
end MosaOS
