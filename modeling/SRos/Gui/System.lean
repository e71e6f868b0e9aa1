import SRos.Gui.Paint
import SRos.Lib.Run
import Mathlib.Data.List.Induction

/-!
# Runs of the window manager

Every call of the window manager and of the cursor as one step. In a run of fewer than 2^30
calls the z-orders do not wrap, and the window list always represents a stack of windows with
the focus on top.
-/

namespace SRos.Gui

open LinkedList

/-- A call, with what `kmalloc` and the mouse buffer return during it. -/
inductive Op where
  | create (x y : Int) (contentW contentH : Nat) (title : CStr) (object : Option Ptr)
      (buffer : Option (Nat → Nat))
  | destroy (win : Option Ptr)
  | focus (win : Option Ptr)
  | move (win : Option Ptr) (x y : Int)
  | click (x y : Int) (buttons : Nat)
  | composite
  | update (events : List MouseEvent)
  | fillRect (win : Option Ptr) (rx ry rw rh : Nat) (c : Color)
  | putpixel (win : Option Ptr) (px py : Nat) (c : Color)
  | putchar (win : Option Ptr) (ch : Int) (px py : Nat) (fg bg : Color)
  | puts (win : Option Ptr) (s : Option CStr) (px py : Nat) (fg bg : Color)
  | cursorInit
  | cursorShow
  | cursorHide
  | cursorMove (dx dy : Int)
  | cursorPollMouse (events : List MouseEvent)
  | cursorRedraw
  | cursorRemove
  | cursorRestore

def call (fuel : Nat) (g : State) : Op → Option State
  | .create x y contentW contentH title object buffer =>
      (wmCreateWindow fuel g x y contentW contentH title object buffer).map Prod.fst
  | .destroy win => wmDestroyWindow fuel g win
  | .focus win => wmFocusWindow fuel g win
  | .move win x y => wmMoveWindow g win x y
  | .click x y buttons => (wmHandleClick fuel g x y buttons).map Prod.fst
  | .composite => wmComposite fuel g
  | .update events => wmUpdate fuel g events
  | .fillRect win rx ry rw rh c => wmFillRect g win rx ry rw rh c
  | .putpixel win px py c => wmPutpixel g win px py c
  | .putchar win ch px py fg bg => wmPutchar g win ch px py fg bg
  | .puts win s px py fg bg => wmPuts g win s px py fg bg
  | .cursorInit => some (cursorInit g)
  | .cursorShow => some (cursorShow g)
  | .cursorHide => some (cursorHide g)
  | .cursorMove dx dy => some (cursorMove g dx dy)
  | .cursorPollMouse events => some (cursorPollMouse g events)
  | .cursorRedraw => some (cursorRedraw g)
  | .cursorRemove => some (cursorRemove g)
  | .cursorRestore => some (cursorRestore g)

/-- The window that a call is given, if it is given one. -/
def Op.window? : Op → Option Ptr
  | .destroy win | .focus win | .move win _ _ | .fillRect win .. | .putpixel win .. |
    .putchar win .. | .puts win .. => win
  | _ => none

/-- `kmalloc` returns a fresh object or NULL, and a window that is passed to a call is live. -/
def allowed (g : State) : Op → Bool
  | .create _ _ _ _ _ object _ => object.all fun win => (g.heap win).isNone
  | op => op.window?.all fun win => (g.heap win).isSome

/-- A click destroys or focuses a window and draws. -/
theorem Frame.handleClick {R : State → State → Prop} {g g' : State} {fuel : Nat} (hR : Frame R)
    (hcomposite : ∀ {fuel g g'}, wmComposite fuel g = some g' → R g g') {x y : Int} {buttons : Nat} {r : Bool}
    (h : wmHandleClick fuel g x y buttons = some (g', r)) : R g g' := by
  unfold wmHandleClick at h
  split at h
  · obtain ⟨rfl, -⟩ := Prod.mk.inj (Option.some.inj h)
    exact hR.refl _
  · obtain ⟨win, -, h⟩ := Option.bind_eq_some_iff.mp h
    split at h
    · obtain ⟨rfl, -⟩ := Prod.mk.inj (Option.some.inj h)
      exact hR.refl _
    · obtain ⟨inside, -, h⟩ := Option.bind_eq_some_iff.mp h
      split at h
      · obtain ⟨g₁, hg₁, h⟩ := Option.bind_eq_some_iff.mp h
        obtain ⟨g₂, hg₂, h⟩ := Option.bind_eq_some_iff.mp h
        obtain ⟨rfl, -⟩ := Prod.mk.inj (Option.some.inj h)
        exact hR.trans (hR.destroyWindow hg₁) (hcomposite hg₂)
      · obtain ⟨g₁, hg₁, h⟩ := Option.bind_eq_some_iff.mp h
        obtain ⟨g₂, hg₂, h⟩ := Option.bind_eq_some_iff.mp h
        obtain ⟨rfl, -⟩ := Prod.mk.inj (Option.some.inj h)
        exact hR.trans (hR.focusWindow hg₁) (hcomposite hg₂)

/-- A relation between a state and a later one that the steps of the calls keep, apart from the
creation of a window. -/
structure CallFrame (R : State → State → Prop) : Prop extends Frame R where
  painted : ∀ {g g'}, Painted g g' → R g g'
  composite : ∀ {fuel g g'}, wmComposite fuel g = some g' → R g g'
  buttonsLast : ∀ g buttons, R g { g with buttonsLast := buttons }

namespace CallFrame

variable {R : State → State → Prop} {g g' : State} {fuel : Nat}

theorem handleClick (hR : CallFrame R) {x y : Int} {buttons : Nat} {r : Bool}
    (h : wmHandleClick fuel g x y buttons = some (g', r)) : R g g' :=
  hR.toFrame.handleClick hR.composite h

theorem updateEvents (hR : CallFrame R) {events : List MouseEvent} {handled r : Bool}
    (h : wmUpdateEvents fuel events g handled = some (g', r)) : R g g' := by
  induction events generalizing g handled with
  | nil =>
      obtain ⟨rfl, -⟩ := Prod.mk.inj (Option.some.inj h)
      exact hR.refl _
  | cons ev evs ih =>
      unfold wmUpdateEvents at h
      dsimp only at h
      have hmove : R g (cursorMove g ev.dx (-ev.dy)) := hR.painted (painted_cursorMove _ _)
      split at h
      · obtain ⟨⟨g₁, r₁⟩, hg₁, h⟩ := Option.bind_eq_some_iff.mp h
        have hclick := hR.trans hmove (hR.handleClick hg₁)
        exact hR.trans hclick (hR.trans (hR.buttonsLast _ _) (ih h))
      · exact hR.trans hmove (hR.trans (hR.buttonsLast _ _) (ih h))

/-- What holds of the creation of a window holds of every call. -/
theorem call (hR : CallFrame R) {op : Op} (h : Gui.call fuel g op = some g')
    (hcreate : ∀ x y contentW contentH title object buffer p,
      op = .create x y contentW contentH title object buffer →
      wmCreateWindow fuel g x y contentW contentH title object buffer = some (g', p) → R g g') :
    R g g' := by
  cases op with
  | create =>
      obtain ⟨⟨g₁, p⟩, hg₁, rfl⟩ := Option.map_eq_some_iff.mp h
      exact hcreate _ _ _ _ _ _ _ _ rfl hg₁
  | destroy => exact hR.destroyWindow h
  | focus => exact hR.focusWindow h
  | move => exact hR.moveWindow h
  | click =>
      obtain ⟨⟨g₁, r⟩, hg₁, rfl⟩ := Option.map_eq_some_iff.mp h
      exact hR.handleClick hg₁
  | composite => exact hR.composite h
  | update events =>
      obtain ⟨⟨g₁, r⟩, hg₁, h⟩ := Option.bind_eq_some_iff.mp h
      have hevents := hR.updateEvents hg₁
      dsimp only at h
      split at h
      · obtain rfl := Option.some.inj h
        exact hevents
      · split at h
        · exact hR.trans hevents (hR.composite h)
        · obtain rfl := Option.some.inj h
          exact hevents
  | fillRect => exact hR.fillRect h
  | putpixel => exact hR.putpixel h
  | putchar => exact hR.putchar h
  | puts => exact hR.puts h
  | cursorInit =>
      obtain rfl := Option.some.inj h
      exact hR.painted painted_cursorInit
  | cursorShow =>
      obtain rfl := Option.some.inj h
      exact hR.painted painted_cursorShow
  | cursorHide =>
      obtain rfl := Option.some.inj h
      exact hR.painted painted_cursorHide
  | cursorMove =>
      obtain rfl := Option.some.inj h
      exact hR.painted (painted_cursorMove _ _)
  | cursorPollMouse =>
      obtain rfl := Option.some.inj h
      exact hR.painted (painted_cursorPollMouse _)
  | cursorRedraw =>
      obtain rfl := Option.some.inj h
      exact hR.painted painted_cursorRedraw
  | cursorRemove =>
      obtain rfl := Option.some.inj h
      exact hR.painted painted_cursorRemove
  | cursorRestore =>
      obtain rfl := Option.some.inj h
      exact hR.painted painted_cursorRestore

end CallFrame

/-! ## Calls keep the stack -/

section Calls

variable {g g' : State} {s : Stacking Ptr} {bound fuel : Nat}

theorem Stacked.mono (h : Stacked g s bound) {bound' : Nat} (hle : bound ≤ bound') :
    Stacked g s bound' := Listed.mono h hle

/-- A state that represents some stack with z-orders up to a bound. -/
def Sound (g : State) (bound : Nat) : Prop := ∃ s, Stacked g s bound

theorem SameList.sound (h : SameList g g') (hs : Sound g bound) : Sound g' bound := by
  obtain ⟨s, hs⟩ := hs
  exact ⟨s, h.stacked hs⟩

theorem Sound.mono (h : Sound g bound) {bound' : Nat} (hle : bound ≤ bound') : Sound g bound' := by
  obtain ⟨s, hs⟩ := h
  exact ⟨s, hs.mono hle⟩

theorem Sound.composite (h : Sound g bound) (hfuel : 16 ≤ fuel) :
    ∃ g', wmComposite fuel g = some g' ∧ Sound g' bound := by
  obtain ⟨s, hs⟩ := h
  obtain ⟨g', hg'⟩ := exists_wmComposite (Listed.linked hs) ((Listed.limit hs).trans hfuel)
  exact ⟨g', hg', s, (sameList_wmComposite hg').stacked hs⟩

theorem Sound.create (h : Sound g bound) (hlt : bound + 2 < 2 ^ 32) (hfuel : 16 ≤ fuel)
    (x y : Int) (contentW contentH : Nat) (title : CStr) {object : Option Ptr}
    (hfresh : ∀ win, object = some win → g.heap win = none) (buffer : Option (Nat → Nat)) :
    ∃ g' p, wmCreateWindow fuel g x y contentW contentH title object buffer = some (g', p) ∧
      Sound g' (bound + 2) := by
  obtain ⟨s, hs⟩ := h
  by_cases hcount : g.wm.count < 16
  · have hlimit : ¬ g.wm.count ≥ wmMaxWindows := by
      unfold wmMaxWindows
      omega
    cases object with
    | none =>
        exact ⟨g, none, by simp [wmCreateWindow, hlimit], s, hs.mono (by omega)⟩
    | some win =>
        have hnone := hfresh win rfl
        cases buffer with
        | none =>
            have hsame : Function.update g.heap win none = g.heap := by
              rw [← hnone, Function.update_eq_self]
            exact ⟨g, none, by simp [wmCreateWindow, hlimit, hsame], s, hs.mono (by omega)⟩
        | some buffer =>
            obtain ⟨g', hg', hs'⟩ := hs.createWindow hlt hnone hfuel x y contentW contentH title
              buffer hcount
            exact ⟨g', some win, hg', _, hs'⟩
  · have hlimit : g.wm.count ≥ wmMaxWindows := by
      unfold wmMaxWindows
      omega
    exact ⟨g, none, by simp [wmCreateWindow, hlimit], s, hs.mono (by omega)⟩

theorem Sound.destroy (h : Sound g bound) (hfuel : 16 ≤ fuel) {win : Option Ptr}
    (hlive : ∀ p, win = some p → Live g.heap p) :
    ∃ g', wmDestroyWindow fuel g win = some g' ∧ Sound g' bound := by
  obtain ⟨s, hs⟩ := h
  cases win with
  | none => exact ⟨g, rfl, s, hs⟩
  | some p =>
      obtain ⟨g', hg', hs'⟩ :=
        hs.destroyWindow ((Listed.live hs p).mpr (hlive p rfl)) hfuel
      exact ⟨g', hg', _, hs'⟩

theorem Sound.focus (h : Sound g bound) (hlt : bound + 1 < 2 ^ 32) (hfuel : 16 ≤ fuel)
    {win : Option Ptr} (hlive : ∀ p, win = some p → Live g.heap p) :
    ∃ g', wmFocusWindow fuel g win = some g' ∧ Sound g' (bound + 1) := by
  obtain ⟨s, hs⟩ := h
  cases win with
  | none => exact ⟨g, rfl, s, hs.mono (Nat.le_succ _)⟩
  | some p =>
      obtain ⟨g', hg', hs'⟩ :=
        hs.focusWindow hlt ((Listed.live hs p).mpr (hlive p rfl)) hfuel
      exact ⟨g', hg', _, hs'⟩

theorem lastHit_snoc (x y : Int) (ws : List (Ptr × Window)) (v : Ptr × Window) :
    lastHit x y (ws ++ [v]) =
      if v.2.visible ∧ windowContains v.2 x y then some v.1 else lastHit x y ws := by
  simp [lastHit, List.foldl_append]

theorem lastHit_mem {x y : Int} {ws : List (Ptr × Window)} {p : Ptr}
    (h : lastHit x y ws = some p) : ∃ w, (p, w) ∈ ws := by
  induction ws using List.reverseRecOn with
  | nil => simp [lastHit] at h
  | append_singleton ws v ih =>
      rw [lastHit_snoc] at h
      split at h
      · obtain rfl := Option.some.inj h
        exact ⟨v.2, by simp⟩
      · obtain ⟨w, hw⟩ := ih h
        exact ⟨w, by simp [hw]⟩

/-- The window that is hit is one of the list. -/
theorem Sound.getWindowAt (h : Sound g bound) (hfuel : 16 ≤ fuel) (x y : Int) :
    ∃ win, wmGetWindowAt fuel g x y = some win ∧ ∀ p, win = some p → Live g.heap p := by
  obtain ⟨s, hs⟩ := h
  obtain ⟨xs, hxs, -, hheap⟩ := (Listed.linked hs).walk ((Listed.limit hs).trans hfuel)
  refine ⟨lastHit x y xs, by simp only [wmGetWindowAt, hxs]; rfl, ?_⟩
  intro p hp
  obtain ⟨w, hw⟩ := lastHit_mem hp
  simp [Live, hheap _ hw]

theorem Sound.click (h : Sound g bound) (hlt : bound + 1 < 2 ^ 32) (hfuel : 16 ≤ fuel) (x y : Int)
    (buttons : Nat) :
    ∃ g' r, wmHandleClick fuel g x y buttons = some (g', r) ∧ Sound g' (bound + 1) := by
  unfold wmHandleClick
  split
  · exact ⟨g, false, rfl, h.mono (Nat.le_succ _)⟩
  obtain ⟨win, hwin, hlive⟩ := h.getWindowAt hfuel x y
  simp only [hwin, Option.bind_eq_bind, Option.bind_some]
  cases win with
  | none => exact ⟨g, false, rfl, h.mono (Nat.le_succ _)⟩
  | some p =>
      obtain ⟨w, hw⟩ := (hlive p rfl).exists
      rw [if_neg (by simp)]
      simp only [wmIsInCloseBtn, hw, Option.bind_eq_bind, Option.bind_some, Option.pure_def]
      split
      · obtain ⟨g₁, hg₁, hs₁⟩ := h.destroy hfuel hlive
        obtain ⟨g₂, hg₂, hs₂⟩ := hs₁.composite hfuel
        exact ⟨g₂, true, by rw [hg₁, Option.bind_some, hg₂]; rfl, hs₂.mono (Nat.le_succ _)⟩
      · obtain ⟨g₁, hg₁, hs₁⟩ := h.focus hlt hfuel hlive
        obtain ⟨g₂, hg₂, hs₂⟩ := hs₁.composite hfuel
        exact ⟨g₂, true, by rw [hg₁, Option.bind_some, hg₂]; rfl, hs₂⟩

theorem Sound.buttonsLast (h : Sound g bound) (buttons : Nat) :
    Sound { g with buttonsLast := buttons } bound := by
  have hsame : SameList g { g with buttonsLast := buttons } := ⟨rfl, rfl, rfl, fun _ => rfl⟩
  exact hsame.sound h

/-- At most one event of an update is a click. -/
theorem Sound.updateEvents (h : Sound g bound) (hfuel : 16 ≤ fuel) (events : List MouseEvent)
    (handled : Bool) (hlt : handled = false → bound + 1 < 2 ^ 32) :
    ∃ g' r, wmUpdateEvents fuel events g handled = some (g', r) ∧
      Sound g' (if handled then bound else bound + 1) := by
  induction events generalizing g bound handled with
  | nil =>
      refine ⟨g, handled, rfl, h.mono ?_⟩
      split <;> omega
  | cons ev evs ih =>
      have hmove : Sound (cursorMove g ev.dx (-ev.dy)) bound :=
        (painted_cursorMove _ _).sameList.sound h
      unfold wmUpdateEvents
      dsimp only
      split
      · next hclick =>
          obtain ⟨-, -, rfl⟩ := hclick
          obtain ⟨g₁, r₁, hg₁, hs₁⟩ := hmove.click (hlt rfl) hfuel _ _ ev.buttons
          obtain ⟨g₂, r₂, hg₂, hs₂⟩ := ih (hs₁.buttonsLast ev.buttons) true (by simp)
          exact ⟨g₂, r₂, by rw [hg₁]; exact hg₂, hs₂⟩
      · exact ih (hmove.buttonsLast ev.buttons) handled hlt

theorem Sound.update (h : Sound g bound) (hlt : bound + 1 < 2 ^ 32) (hfuel : 16 ≤ fuel)
    (events : List MouseEvent) :
    ∃ g', wmUpdate fuel g events = some g' ∧ Sound g' (bound + 1) := by
  obtain ⟨g₁, r, hg₁, hs₁⟩ := h.updateEvents hfuel events false fun _ => hlt
  simp only [wmUpdate, hg₁, Option.bind_eq_bind, Option.bind_some]
  split
  · exact ⟨g₁, rfl, hs₁⟩
  · split
    · exact hs₁.composite hfuel
    · exact ⟨g₁, rfl, hs₁⟩

/-- A call that draws into the buffer of a live window ends, and keeps the list. -/
theorem exists_draw {win : Ptr} (hlive : Live g.heap win) (ss : List Store) :
    ∃ g', g.draw win ss = some g' ∧ SameList g g' := by
  obtain ⟨w, hw⟩ := hlive.exists
  have heq := modify_eq hw fun w =>
    { w with buffer := w.buffer.map (Stores.perform ss), dirty := true }
  refine ⟨_, by simp only [State.draw, heq]; rfl, ?_⟩
  exact (SameList.modify heq fun _ => rfl).trans (sameList_needsComposite true)

theorem exists_fillRect {win : Option Ptr} (hlive : ∀ p, win = some p → Live g.heap p)
    (rx ry rw rh : Nat) (c : Color) :
    ∃ g', wmFillRect g win rx ry rw rh c = some g' ∧ SameList g g' := by
  cases win with
  | none => exact ⟨g, rfl, (Painted.refl g).sameList⟩
  | some p =>
      obtain ⟨w, hw⟩ := (hlive p rfl).exists
      simp only [wmFillRect, hw, Option.bind_eq_bind, Option.bind_some]
      split
      · exact ⟨g, rfl, (Painted.refl g).sameList⟩
      · split
        · exact ⟨g, rfl, (Painted.refl g).sameList⟩
        · exact exists_draw (hlive p rfl) _

theorem exists_putpixel {win : Option Ptr} (hlive : ∀ p, win = some p → Live g.heap p)
    (px py : Nat) (c : Color) :
    ∃ g', wmPutpixel g win px py c = some g' ∧ SameList g g' := by
  cases win with
  | none => exact ⟨g, rfl, (Painted.refl g).sameList⟩
  | some p =>
      obtain ⟨w, hw⟩ := (hlive p rfl).exists
      simp only [wmPutpixel, hw, Option.bind_eq_bind, Option.bind_some]
      split
      · exact ⟨g, rfl, (Painted.refl g).sameList⟩
      · split
        · exact ⟨g, rfl, (Painted.refl g).sameList⟩
        · exact exists_draw (hlive p rfl) _

theorem exists_putchar {win : Option Ptr} (hlive : ∀ p, win = some p → Live g.heap p) (ch : Int)
    (px py : Nat) (fg bg : Color) :
    ∃ g', wmPutchar g win ch px py fg bg = some g' ∧ SameList g g' := by
  cases win with
  | none => exact ⟨g, rfl, (Painted.refl g).sameList⟩
  | some p =>
      obtain ⟨w, hw⟩ := (hlive p rfl).exists
      simp only [wmPutchar, hw, Option.bind_eq_bind, Option.bind_some]
      split
      · exact ⟨g, rfl, (Painted.refl g).sameList⟩
      split
      · exact ⟨g, rfl, (Painted.refl g).sameList⟩
      split
      · exact ⟨g, rfl, (Painted.refl g).sameList⟩
      · exact exists_draw (hlive p rfl) _

theorem exists_putsFrom {win : Ptr} (hlive : Live g.heap win) (px : Nat) (fg bg : Color)
    (bs : List UInt8) (cx cy : Nat) :
    ∃ g', putsFrom win px fg bg bs cx cy g = some g' ∧ SameList g g' := by
  induction bs generalizing g cx cy with
  | nil => exact ⟨g, rfl, (Painted.refl g).sameList⟩
  | cons b bs ih =>
      unfold putsFrom
      split
      · exact ih hlive _ _
      · have hlive' : ∀ p, some win = some p → Live g.heap p := by simpa using hlive
        obtain ⟨g₁, hg₁, hsame₁⟩ := exists_putchar hlive' (charValue b) cx cy fg bg
        have hlive₁ : Live g₁.heap win := (hsame₁.sameStack.live win).mpr hlive
        obtain ⟨w, hw⟩ := hlive₁.exists
        simp only [hg₁, hw, Option.bind_eq_bind, Option.bind_some]
        split
        · obtain ⟨g₂, hg₂, hsame₂⟩ := ih hlive₁ px (u32 (cy + fontCharHeight))
          exact ⟨g₂, hg₂, hsame₁.trans hsame₂⟩
        · obtain ⟨g₂, hg₂, hsame₂⟩ := ih hlive₁ (u32 (cx + fontCharWidth)) cy
          exact ⟨g₂, hg₂, hsame₁.trans hsame₂⟩

theorem exists_move {win : Option Ptr} (hlive : ∀ p, win = some p → Live g.heap p) (x y : Int) :
    ∃ g', wmMoveWindow g win x y = some g' ∧ SameList g g' := by
  cases win with
  | none => exact ⟨g, rfl, (Painted.refl g).sameList⟩
  | some p =>
      obtain ⟨w, hw⟩ := (hlive p rfl).exists
      have heq := modify_eq hw fun w => { w with x := x, y := y, dirty := true }
      refine ⟨_, by simp only [wmMoveWindow, heq]; rfl, ?_⟩
      exact (SameList.modify heq fun _ => rfl).trans (sameList_needsComposite true)

/-- Every call ends, keeps the stack and raises the highest z-order by at most two. -/
theorem Sound.call {op : Op} (h : Sound g bound) (hok : allowed g op = true) (hlt : bound + 2 < 2 ^ 32)
    (hfuel : 16 ≤ fuel) :
    ∃ g', Gui.call fuel g op = some g' ∧ Sound g' (bound + 2) := by
  have hkept : ∀ {o : Option State}, (∃ g', o = some g' ∧ SameList g g') →
      ∃ g', o = some g' ∧ Sound g' (bound + 2) := by
    intro o ⟨g', hg', hsame⟩
    exact ⟨g', hg', hsame.sound (h.mono (by omega))⟩
  have hpainted : ∀ {g'}, Painted g g' → ∃ g'', some g' = some g'' ∧ Sound g'' (bound + 2) :=
    fun hp => hkept ⟨_, rfl, hp.sameList⟩
  have hlt' : bound + 1 < 2 ^ 32 := by omega
  have hmono : ∀ {g'}, Sound g' (bound + 1) → Sound g' (bound + 2) := fun hs => hs.mono (by omega)
  have hwin : ∀ {win : Option Ptr}, (win.all fun p => (g.heap p).isSome) = true →
      ∀ p, win = some p → Live g.heap p := by
    intro win hwin p hp
    simpa [hp, Live] using hwin
  cases op with
  | create x y contentW contentH title object buffer =>
      have hfresh : ∀ win, object = some win → g.heap win = none := by
        intro win hobject
        simpa [allowed, hobject] using hok
      obtain ⟨g', p, hg', hs⟩ := h.create hlt hfuel x y contentW contentH title hfresh buffer
      exact ⟨g', by simp [Gui.call, hg'], hs⟩
  | destroy win =>
      obtain ⟨g', hg', hs⟩ := h.destroy hfuel (hwin hok)
      exact ⟨g', hg', hs.mono (by omega)⟩
  | focus win =>
      obtain ⟨g', hg', hs⟩ := h.focus hlt' hfuel (hwin hok)
      exact ⟨g', hg', hmono hs⟩
  | move win x y => exact hkept (exists_move (hwin hok) x y)
  | click x y buttons =>
      obtain ⟨g', r, hg', hs⟩ := h.click hlt' hfuel x y buttons
      exact ⟨g', by simp [Gui.call, hg'], hmono hs⟩
  | composite =>
      obtain ⟨g', hg', hs⟩ := h.composite hfuel
      exact ⟨g', hg', hs.mono (by omega)⟩
  | update events =>
      obtain ⟨g', hg', hs⟩ := h.update hlt' hfuel events
      exact ⟨g', hg', hmono hs⟩
  | fillRect win rx ry rw rh c => exact hkept (exists_fillRect (hwin hok) rx ry rw rh c)
  | putpixel win px py c => exact hkept (exists_putpixel (hwin hok) px py c)
  | putchar win ch px py fg bg => exact hkept (exists_putchar (hwin hok) ch px py fg bg)
  | puts win s px py fg bg =>
      have hlive : ∀ p, win = some p → Live g.heap p := hwin hok
      cases win with
      | none => exact hkept ⟨g, rfl, (Painted.refl g).sameList⟩
      | some p =>
          cases s with
          | none => exact hkept ⟨g, rfl, (Painted.refl g).sameList⟩
          | some s => exact hkept (exists_putsFrom (hlive p rfl) px fg bg s.bytes px py)
  | cursorInit => exact hpainted painted_cursorInit
  | cursorShow => exact hpainted painted_cursorShow
  | cursorHide => exact hpainted painted_cursorHide
  | cursorMove dx dy => exact hpainted (painted_cursorMove dx dy)
  | cursorPollMouse events => exact hpainted (painted_cursorPollMouse events)
  | cursorRedraw => exact hpainted painted_cursorRedraw
  | cursorRemove => exact hpainted painted_cursorRemove
  | cursorRestore => exact hpainted painted_cursorRestore

end Calls

/-! ## Runs -/

/-- The state together with the number of calls made since `wm_init`. -/
structure Session where
  gui : State
  calls : Nat

def Session.step (fuel : Nat) (s : Session) (op : Op) : Option Session := do
  let g ← call fuel s.gui op
  return ⟨g, s.calls + 1⟩

theorem sound_wmInit {g : State} (hheap : ∀ p, g.heap p = none) : Sound (wmInit g) 0 := by
  refine ⟨Stacking.empty, ?_⟩
  exact
    { linked := ⟨rfl, by simp [Stacking.empty]⟩
      nodup := List.nodup_nil
      live := fun p => by simp [Stacking.empty, Live, wmInit, hheap]
      sorted := List.Pairwise.nil
      count := rfl
      limit := Nat.zero_le _
      focused := rfl
      flag := fun p => by simp [flagOf, wmInit, hheap, Stacking.empty]
      bound := by simp [Stacking.empty] }

theorem Session.sound {fuel : Nat} (hfuel : 16 ≤ fuel) {g : State} (hheap : ∀ p, g.heap p = none)
    {s : Session}
    (hrun : Reach (Session.step fuel) (fun s op => allowed s.gui op = true) ⟨wmInit g, 0⟩ s)
    (hcalls : s.calls < 2 ^ 30) : Sound s.gui (2 * s.calls) := by
  have hinv := hrun.invariant (P := fun s => s.calls < 2 ^ 30 → Sound s.gui (2 * s.calls))
    (fun _ => sound_wmInit hheap) (by
      intro s op s' hs hok hstep hlt
      obtain ⟨g', hg', hs'⟩ := Option.bind_eq_some_iff.mp hstep
      obtain rfl := Option.some.inj hs'
      dsimp only at hlt ⊢
      obtain ⟨g'', hg'', hsound⟩ := (hs (by omega)).call hok (by omega) hfuel
      rw [hg''] at hg'
      obtain rfl := Option.some.inj hg'
      exact hsound)
  exact hinv hcalls

/-- In every run of fewer than 2^30 calls from `wm_init`, the list is acyclic and holds exactly
the live windows in strictly increasing z-order, its length is the count and at most 16, the
focus is on its last window or on none, and exactly the focused window is marked. Moreover no
call reads a window that is not allocated or runs on without end. -/
theorem windows_stacked (fuel : Nat) (hfuel : 16 ≤ fuel) (g : State)
    (hheap : ∀ p, g.heap p = none) (s : Session)
    (hrun : Reach (Session.step fuel) (fun s op => allowed s.gui op = true) ⟨wmInit g, 0⟩ s)
    (hcalls : s.calls < 2 ^ 30) :
    (∃ ws : List Ptr,
      Linked s.gui.heap Window.next s.gui.wm.windows ws ∧ ws.Nodup ∧
      (∀ p, p ∈ ws ↔ Live s.gui.heap p) ∧
      (ws.Pairwise fun p q => zOf s.gui.heap p < zOf s.gui.heap q) ∧
      s.gui.wm.count = ws.length ∧ s.gui.wm.count ≤ 16 ∧
      (s.gui.wm.focused = none ∨ s.gui.wm.focused = ws.getLast?) ∧
      ∀ p w, s.gui.heap p = some w → (w.focused = true ↔ s.gui.wm.focused = some p)) ∧
    ∀ op, allowed s.gui op = true → ∃ s', Session.step fuel s op = some s' := by
  have hsound := Session.sound hfuel hheap hrun hcalls
  constructor
  · obtain ⟨st, hst⟩ := hsound
    have hlimit : (st.order.length : Int) ≤ 16 := by exact_mod_cast Listed.limit hst
    refine ⟨st.order, Listed.linked hst, Listed.nodup hst, Listed.live hst, Listed.sorted hst,
      Listed.count hst, Listed.count hst ▸ hlimit, ?_, ?_⟩
    · rw [Listed.focused hst]
      cases hfocus : st.focus with
      | none => exact .inl rfl
      | some p => exact .inr (st.top p hfocus).symm
    · intro p w hw
      rw [Listed.focused hst, ← Listed.flag hst p, flagOf_eq hw]
  · intro op hok
    obtain ⟨g', hg', -⟩ := hsound.call hok (by omega) hfuel
    exact ⟨⟨g', s.calls + 1⟩, by simp [Session.step, hg']⟩

/-- Two windows are created, a click raises the lower one, and the other one is destroyed. -/
theorem windows_stacked_click : ∃ s : Session, s.calls = 4 ∧ s.gui.wm.count = 1 ∧
    s.gui.wm.focused = some 100 ∧ ∃ ws : List Ptr,
      Linked s.gui.heap Window.next s.gui.wm.windows ws ∧ s.gui.wm.focused = ws.getLast? := by
  let g := State.boot (framebufferMap (framebufferInit 0 2 2 8 32)) fun _ => 0
  have hrun : ((some ⟨wmInit g, 0⟩).bind (runList (Session.step 16)
      (fun s op => allowed s.gui op)
      [.create 0 0 24 1 CStr.empty (some 100) (some fun _ => 0),
        .create 8 8 24 1 CStr.empty (some 200) (some fun _ => 0), .click 1 1 1,
        .destroy (some 200)])).any
      (fun s => decide (s.calls = 4 ∧ s.gui.wm.count = 1 ∧ s.gui.wm.focused = some 100)) = true := by
    decide +kernel
  obtain ⟨s₀, s, h₀, h, hp⟩ := Reach.exists_of_runList hrun
  obtain rfl := Option.some.inj h₀
  obtain ⟨hcalls, hcount, hfocused⟩ := of_decide_eq_true hp
  obtain ⟨⟨ws, hlinked, -, -, -, -, -, hlast, -⟩, -⟩ :=
    windows_stacked 16 le_rfl g (fun _ => rfl) s h (by omega)
  refine ⟨s, hcalls, hcount, hfocused, ws, hlinked, ?_⟩
  rcases hlast with hnone | hlast
  · rw [hfocused] at hnone
    cases hnone
  · exact hlast

end SRos.Gui
