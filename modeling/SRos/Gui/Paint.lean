import SRos.Gui.Stack

/-!
# What drawing changes

Everything that is drawn is a list of stores to pixels of the screen. The functions of the
cursor and the drawing loop of `wm_composite` change the screen and the cursor; the windows and
their order stay as they are.
-/

namespace SRos.Gui

open LinkedList Stores

/-- The address of a pixel that the bounds checks of the drawing loops let through. -/
def OnScreen (fb : Framebuffer) (a : Nat) : Prop :=
  ∃ sx sy, sx < fb.width ∧ sy < fb.height ∧ a = fb.pixel sx sy

def AllOnScreen (fb : Framebuffer) (ss : List Store) : Prop := ∀ s ∈ ss, OnScreen fb s.1

variable {fb : Framebuffer} {g g' g'' : State} {ss ts : List Store}

theorem allOnScreen_put (sx sy v : Nat) : AllOnScreen fb (put fb sx sy v) := by
  intro s hs
  unfold put at hs
  split at hs
  · next h =>
      obtain rfl := List.mem_singleton.mp hs
      exact ⟨sx, sy, h.1, h.2, rfl⟩
  · simp at hs

theorem AllOnScreen.append (h : AllOnScreen fb ss) (h' : AllOnScreen fb ts) :
    AllOnScreen fb (ss ++ ts) := by
  intro s hs
  rcases List.mem_append.mp hs with hs | hs
  · exact h s hs
  · exact h' s hs

theorem allOnScreen_flatMap {ns : List Nat} {f : Nat → List Store}
    (h : ∀ n, AllOnScreen fb (f n)) : AllOnScreen fb (ns.flatMap f) := by
  intro s hs
  obtain ⟨n, -, hs⟩ := List.mem_flatMap.mp hs
  exact h n s hs

theorem allOnScreen_drawWindow (w : Window) : AllOnScreen fb (drawWindow fb w) := by
  have hput := @allOnScreen_put fb
  have hborder (v : Nat) : AllOnScreen fb (drawBorder fb w v) :=
    allOnScreen_flatMap fun b =>
      (((allOnScreen_flatMap fun cx => hput _ _ _).append
        (allOnScreen_flatMap fun cx => hput _ _ _)).append
        (allOnScreen_flatMap fun cy => hput _ _ _)).append
        (allOnScreen_flatMap fun cy => hput _ _ _)
  have hbar (y : Int) (v : Nat) : AllOnScreen fb (drawTitleBar fb w y v) :=
    allOnScreen_flatMap fun ty => allOnScreen_flatMap fun tx => hput _ _ _
  have htext (y : Int) (t v : Nat) : AllOnScreen fb (drawTitleText fb w y t v) :=
    allOnScreen_flatMap fun ci => allOnScreen_flatMap fun row =>
      allOnScreen_flatMap fun col => hput _ _ _
  have hclose (x y : Int) (c v : Nat) : AllOnScreen fb (drawCloseButton fb x y c v) :=
    (allOnScreen_flatMap fun by_ => allOnScreen_flatMap fun bx => hput _ _ _).append
      (allOnScreen_flatMap fun i => (hput _ _ _).append (hput _ _ _))
  apply AllOnScreen.append
  · exact (((hborder _).append (hbar _ _)).append (htext _ _ _)).append (hclose _ _ _ _)
  · unfold drawWindowContent
    split
    · exact fun s hs => absurd hs List.not_mem_nil
    · exact allOnScreen_flatMap fun ry => allOnScreen_flatMap fun rx => hput _ _ _

theorem allOnScreen_background (bg : Nat → Nat → Nat) (x y : Int) :
    AllOnScreen fb (backgroundStores fb bg x y) :=
  allOnScreen_flatMap fun _ => allOnScreen_flatMap fun _ => allOnScreen_put _ _ _

theorem allOnScreen_sprite (x y : Int) : AllOnScreen fb (spriteStores fb x y) := by
  refine allOnScreen_flatMap fun row => allOnScreen_flatMap fun col => ?_
  dsimp only
  split
  · exact fun s hs => absurd hs List.not_mem_nil
  · exact allOnScreen_put _ _ _

/-! ## Changes of the screen and the cursor -/

/-- Only the screen and the cursor have changed, and what was stored was stored to pixels. -/
structure Painted (g g' : State) : Prop where
  fb : g'.fb = g.fb
  wm : g'.wm = g.wm
  heap : g'.heap = g.heap
  composites : g'.composites = g.composites
  stored : ∃ as, g'.stored = g.stored ++ as ∧ ∀ a ∈ as, OnScreen g.fb a

theorem Painted.refl (g : State) : Painted g g := ⟨rfl, rfl, rfl, rfl, [], by simp, by simp⟩

theorem Painted.trans (h : Painted g g') (h' : Painted g' g'') : Painted g g'' := by
  obtain ⟨as, has, hon⟩ := h.stored
  obtain ⟨bs, hbs, hon'⟩ := h'.stored
  rw [h.fb] at hon'
  refine ⟨h'.fb.trans h.fb, h'.wm.trans h.wm, h'.heap.trans h.heap,
    h'.composites.trans h.composites, as ++ bs, by rw [hbs, has, List.append_assoc], ?_⟩
  intro a ha
  rcases List.mem_append.mp ha with ha | ha
  · exact hon a ha
  · exact hon' a ha

theorem Painted.emit (h : AllOnScreen g.fb ss) : Painted g (g.emit ss) := by
  refine ⟨rfl, rfl, rfl, rfl, ss.map Prod.fst, rfl, ?_⟩
  intro a ha
  obtain ⟨s, hs, rfl⟩ := List.mem_map.mp ha
  exact h s hs

theorem Painted.cursor (c : Cursor) : Painted g { g with cursor := c } :=
  ⟨rfl, rfl, rfl, rfl, [], by simp, by simp⟩

theorem painted_saveBackground : Painted g (saveBackground g) := by
  unfold saveBackground
  split
  · exact .refl g
  · exact .cursor _

theorem painted_drawCursor : Painted g (drawCursor g) := by
  unfold drawCursor
  split
  · exact .refl g
  · exact .emit (allOnScreen_sprite _ _)

theorem painted_restoreBackground : Painted g (restoreBackground g) := by
  unfold restoreBackground
  split
  · exact .refl g
  · exact .emit (allOnScreen_background _ _ _)

theorem painted_saveDraw : Painted g (drawCursor (saveBackground g)) :=
  painted_saveBackground.trans painted_drawCursor

theorem painted_cursorInit : Painted g (cursorInit g) := by
  unfold cursorInit
  dsimp only
  split
  · exact (Painted.cursor _).trans painted_saveDraw
  · exact .cursor _

theorem painted_cursorShow : Painted g (cursorShow g) := by
  unfold cursorShow
  split
  · exact .refl g
  · exact (Painted.cursor _).trans painted_saveDraw

theorem painted_cursorHide : Painted g (cursorHide g) := by
  unfold cursorHide
  split
  · exact .refl g
  · exact (Painted.cursor _).trans painted_restoreBackground

theorem painted_cursorMove (dx dy : Int) : Painted g (cursorMove g dx dy) := by
  unfold cursorMove
  dsimp only
  split
  · exact .refl g
  · split
    · exact .cursor _
    · exact (Painted.cursor _).trans (painted_restoreBackground.trans painted_saveDraw)

theorem painted_cursorPollMouse (events : List MouseEvent) :
    Painted g (cursorPollMouse g events) := by
  unfold cursorPollMouse
  induction events generalizing g with
  | nil => exact .refl g
  | cons ev evs ih => exact (painted_cursorMove _ _).trans ih

theorem painted_cursorRedraw : Painted g (cursorRedraw g) := by
  unfold cursorRedraw
  split
  · exact .refl g
  · exact painted_saveDraw

theorem painted_cursorRemove : Painted g (cursorRemove g) := by
  unfold cursorRemove
  split
  · exact .refl g
  · exact .emit (allOnScreen_background _ _ _)

theorem painted_cursorRestore : Painted g (cursorRestore g) := by
  unfold cursorRestore
  split
  · exact .refl g
  · exact (Painted.cursor _).trans painted_saveDraw

/-! ## Changes that keep the stack -/

/-- What the list and the stack of windows depend on. -/
def Window.key (w : Window) : Nat × Bool × Option Ptr := (w.zOrder, w.focused, w.next)

/-- The list of windows and the focus are the same. -/
structure SameList (g g' : State) : Prop where
  windows : g'.wm.windows = g.wm.windows
  focused : g'.wm.focused = g.wm.focused
  count : g'.wm.count = g.wm.count
  key : ∀ p, (g'.heap p).map Window.key = (g.heap p).map Window.key

theorem SameList.trans (h : SameList g g') (h' : SameList g' g'') : SameList g g'' :=
  ⟨h'.windows.trans h.windows, h'.focused.trans h.focused, h'.count.trans h.count,
    fun p => (h'.key p).trans (h.key p)⟩

theorem Painted.sameList (h : Painted g g') : SameList g g' := by
  refine ⟨?_, ?_, ?_, ?_⟩
  · rw [h.wm]
  · rw [h.wm]
  · rw [h.wm]
  · intro p
    rw [h.heap]

/-- Writing fields of a window that are not part of its key. -/
theorem SameList.modify {win : Ptr} {f : Window → Window} (h : g.modify win f = some g')
    (hf : ∀ w, (f w).key = w.key) : SameList g g' := by
  obtain ⟨w, hw, hg'⟩ := Option.bind_eq_some_iff.mp h
  obtain rfl := Option.some.inj hg'
  refine ⟨rfl, rfl, rfl, fun p => ?_⟩
  by_cases hp : p = win
  · subst hp; simp [hw, hf]
  · simp [Function.update_of_ne hp]

theorem SameList.linked (h : SameList g g') {ws : List Ptr}
    (hl : Linked g.heap Window.next g.wm.windows ws) :
    Linked g'.heap Window.next g'.wm.windows ws := by
  have hkey : ∀ p, (∃ w, g.heap p = some w) → ∃ w, g'.heap p = some w := by
    intro p ⟨w, hw⟩
    have hp := h.key p
    rw [hw] at hp
    obtain ⟨w', hw', -⟩ := Option.map_eq_some_iff.mp hp
    exact ⟨w', hw'⟩
  have hlink : link g'.heap Window.next = link g.heap Window.next := by
    funext p
    have hp := congrArg (fun o => o.bind fun k => k.2.2) (h.key p)
    simpa [link, Option.bind_map, Function.comp_def, Window.key] using hp
  refine ⟨?_, fun p hp => hkey p (hl.live p hp)⟩
  rw [hlink, h.windows]
  exact hl.chain

theorem SameList.sameStack (h : SameList g g') : SameStack g.heap g'.heap := by
  refine ⟨?_, ?_, ?_⟩
  · funext p
    have hp := congrArg (fun o => (o.map Prod.fst).getD 0) (h.key p)
    simpa [zOf, Function.comp_def, Window.key] using hp
  · funext p
    have hp := congrArg (fun o => (o.map fun k => k.2.1).getD false) (h.key p)
    simpa [flagOf, Function.comp_def, Window.key] using hp
  · intro p
    have hp := congrArg Option.isSome (h.key p)
    simp only [Option.isSome_map] at hp
    simp [Live, hp]

theorem SameList.stacked (h : SameList g g') {s : Stacking Ptr} {bound : Nat}
    (hs : Stacked g s bound) : Stacked g' s bound :=
  Listed.congr hs h.sameStack (h.linked (Listed.linked hs)) h.count h.focused

/-! ## `wm_composite` -/

theorem sameList_compositeWindow (x : Ptr × Window) : SameList g (compositeWindow g x) := by
  unfold compositeWindow
  split
  · refine ⟨rfl, rfl, rfl, fun p => ?_⟩
    by_cases hp : p = x.1
    · subst hp
      simp only [State.emit, Function.update_self, Option.map_map]
      rfl
    · simp [State.emit, Function.update_of_ne hp]
  · exact (Painted.refl g).sameList

theorem sameList_composites (ws : List (Ptr × Window)) :
    SameList g (ws.foldl compositeWindow g) := by
  induction ws generalizing g with
  | nil => exact (Painted.refl g).sameList
  | cons x ws ih => exact (sameList_compositeWindow x).trans ih

theorem painted_remove (b : Bool) : Painted g (bif b then cursorRemove g else g) := by
  cases b
  · exact .refl g
  · exact painted_cursorRemove

theorem painted_restore (b : Bool) : Painted g (bif b then cursorRestore g else g) := by
  cases b
  · exact .refl g
  · exact painted_cursorRestore

theorem sameList_repStosl (count v : Nat) : SameList g (repStosl g count v) :=
  ⟨rfl, rfl, rfl, fun _ => rfl⟩

theorem sameList_needsComposite (b : Bool) :
    SameList g { g with wm := { g.wm with needsComposite := b } } :=
  ⟨rfl, rfl, rfl, fun _ => rfl⟩

theorem sameList_redraw {fuel : Nat} (h : redraw fuel g = some g') : SameList g g' := by
  unfold redraw at h
  split at h
  · obtain rfl := Option.some.inj h
    exact sameList_repStosl _ _
  · obtain ⟨ws, -, hg'⟩ := Option.bind_eq_some_iff.mp h
    obtain rfl := Option.some.inj hg'
    exact sameList_composites ws

theorem sameList_compositeBody {fuel : Nat} (h : compositeBody fuel g = some g') :
    SameList g g' := by
  unfold compositeBody at h
  split at h
  · obtain rfl := Option.some.inj h
    exact (Painted.refl g).sameList
  split at h
  · obtain rfl := Option.some.inj h
    exact (Painted.refl g).sameList
  obtain ⟨g₁, hg₁, hg'⟩ := Option.bind_eq_some_iff.mp h
  obtain rfl := Option.some.inj hg'
  exact (((painted_remove _).sameList.trans (sameList_redraw hg₁)).trans
    (painted_restore _).sameList).trans (sameList_needsComposite false)

theorem wmComposite_eq {fuel : Nat} (h : compositeBody fuel g = some g') :
    wmComposite fuel g = some
      { g' with
        composites := g'.composites ++
          [{ count := g.wm.count, needsComposite := g.wm.needsComposite, before := g.fb
             after := g'.fb, stored := g'.stored.drop g.stored.length }] } := by
  simp [wmComposite, h]

theorem sameList_wmComposite {fuel : Nat} (h : wmComposite fuel g = some g') :
    SameList g g' := by
  obtain ⟨g₁, hg₁, hg'⟩ := Option.bind_eq_some_iff.mp h
  obtain rfl := Option.some.inj hg'
  exact (sameList_compositeBody hg₁).trans ⟨rfl, rfl, rfl, fun _ => rfl⟩

/-- `wm_composite` ends when the list does. -/
theorem exists_wmComposite {fuel : Nat} {ws : List Ptr}
    (h : Linked g.heap Window.next g.wm.windows ws) (hfuel : ws.length ≤ fuel) :
    ∃ g', wmComposite fuel g = some g' := by
  suffices hbody : ∃ g', compositeBody fuel g = some g' by
    obtain ⟨g₁, hg₁⟩ := hbody
    exact ⟨_, wmComposite_eq hg₁⟩
  unfold compositeBody
  split
  · exact ⟨_, rfl⟩
  split
  · exact ⟨_, rfl⟩
  suffices hredraw : ∃ g', redraw fuel (bif g.cursor.visible then cursorRemove g else g) = some g' by
    obtain ⟨g₁, hg₁⟩ := hredraw
    exact ⟨_, by dsimp only; rw [hg₁]; rfl⟩
  unfold redraw
  split
  · exact ⟨_, rfl⟩
  · obtain ⟨xs, hxs, -⟩ := ((painted_remove g.cursor.visible).sameList.linked h).walk hfuel
    exact ⟨_, by rw [hxs]; rfl⟩

/-! ## Changes of the windows -/

/-- A window whose place in the list and whose flags may have changed. -/
def Window.Marked (w w' : Window) : Prop :=
  ∃ zOrder focused dirty next, w' = { w with zOrder, focused, dirty, next }

theorem Window.Marked.refl (w : Window) : w.Marked w := ⟨_, _, _, _, rfl⟩

theorem Window.Marked.trans {w w' w'' : Window} (h : w.Marked w') (h' : w'.Marked w'') :
    w.Marked w'' := by
  obtain ⟨_, _, _, _, rfl⟩ := h
  obtain ⟨_, _, _, _, rfl⟩ := h'
  exact ⟨_, _, _, _, rfl⟩

/-- A relation between a state and a later one that the single steps keep which insert and focus
a window. -/
structure MarkFrame (R : State → State → Prop) : Prop where
  refl : ∀ g, R g g
  trans : ∀ {g g' g''}, R g g' → R g' g'' → R g g''
  wm : ∀ g wm, R g { g with wm := wm }
  mark : ∀ {g g' win f}, (∀ w : Window, w.Marked (f w)) → g.modify win f = some g' → R g g'

namespace MarkFrame

variable {R : State → State → Prop} {fuel : Nat} {win : Ptr}

theorem insertSorted (hR : MarkFrame R) (h : Gui.insertSorted fuel g win = some g') : R g g' := by
  obtain ⟨w, -, h⟩ := Option.bind_eq_some_iff.mp h
  split at h
  · obtain ⟨g₁, hg₁, hg'⟩ := Option.bind_eq_some_iff.mp h
    obtain rfl := Option.some.inj hg'
    exact hR.trans (hR.mark (fun _ => ⟨_, _, _, _, rfl⟩) hg₁) (hR.wm _ _)
  · obtain ⟨v, -, h⟩ := Option.bind_eq_some_iff.mp h
    split at h
    · obtain ⟨g₁, hg₁, hg'⟩ := Option.bind_eq_some_iff.mp h
      obtain rfl := Option.some.inj hg'
      exact hR.trans (hR.mark (fun _ => ⟨_, _, _, _, rfl⟩) hg₁) (hR.wm _ _)
    · obtain ⟨prev, -, h⟩ := Option.bind_eq_some_iff.mp h
      obtain ⟨p, -, h⟩ := Option.bind_eq_some_iff.mp h
      obtain ⟨g₁, hg₁, hg'⟩ := Option.bind_eq_some_iff.mp h
      exact hR.trans (hR.mark (fun _ => ⟨_, _, _, _, rfl⟩) hg₁)
        (hR.mark (fun _ => ⟨_, _, _, _, rfl⟩) hg')

theorem removeFromList (hR : MarkFrame R) (h : Gui.removeFromList fuel g win = some g') :
    R g g' := by
  unfold Gui.removeFromList at h
  split at h
  · obtain rfl := Option.some.inj h
    exact hR.refl _
  · split at h
    · obtain ⟨w, -, hg'⟩ := Option.bind_eq_some_iff.mp h
      obtain rfl := Option.some.inj hg'
      exact hR.wm _ _
    · obtain ⟨prev, -, h⟩ := Option.bind_eq_some_iff.mp h
      obtain ⟨p, -, h⟩ := Option.bind_eq_some_iff.mp h
      split at h
      · obtain rfl := Option.some.inj h
        exact hR.refl _
      · obtain ⟨w, -, hg'⟩ := Option.bind_eq_some_iff.mp h
        exact hR.mark (fun _ => ⟨_, _, _, _, rfl⟩) hg'

theorem raiseWindow (hR : MarkFrame R) (h : Gui.raiseWindow fuel g win = some g') : R g g' := by
  obtain ⟨z, -, h⟩ := Option.bind_eq_some_iff.mp h
  obtain ⟨g₁, hg₁, h⟩ := Option.bind_eq_some_iff.mp h
  obtain ⟨g₂, hg₂, hg'⟩ := Option.bind_eq_some_iff.mp h
  have hmarked : R g g₂ :=
    hR.trans (hR.removeFromList hg₁) (hR.mark (fun _ => ⟨_, _, _, _, rfl⟩) hg₂)
  exact hR.trans hmarked (hR.insertSorted hg')

theorem dropFocus (hR : MarkFrame R) (h : Gui.dropFocus g = some g') : R g g' := by
  unfold Gui.dropFocus at h
  split at h
  · obtain rfl := Option.some.inj h
    exact hR.refl _
  · exact hR.mark (fun _ => ⟨_, _, _, _, rfl⟩) h

theorem focusWindow (hR : MarkFrame R) {win : Option Ptr} (h : wmFocusWindow fuel g win = some g') :
    R g g' := by
  unfold wmFocusWindow at h
  split at h
  · obtain rfl := Option.some.inj h
    exact hR.refl _
  · split at h
    · exact hR.mark (fun _ => ⟨_, _, _, _, rfl⟩) h
    · obtain ⟨g₁, hg₁, h⟩ := Option.bind_eq_some_iff.mp h
      obtain ⟨g₂, hg₂, h⟩ := Option.bind_eq_some_iff.mp h
      obtain ⟨g₃, hg₃, h⟩ := Option.bind_eq_some_iff.mp h
      obtain ⟨g₄, hg₄, hg'⟩ := Option.bind_eq_some_iff.mp h
      obtain rfl := Option.some.inj hg'
      have hmarked : R g g₂ :=
        hR.trans (hR.dropFocus hg₁) (hR.mark (fun _ => ⟨_, _, _, _, rfl⟩) hg₂)
      have hraised : R g g₃ := hR.trans hmarked (hR.trans (hR.wm _ _) (hR.raiseWindow hg₃))
      exact hR.trans hraised
        (hR.trans (hR.mark (fun _ => ⟨_, _, _, _, rfl⟩) hg₄) (hR.wm _ _))

end MarkFrame

/-- A relation between a state and a later one that the single steps of the window functions
keep. -/
structure Frame (R : State → State → Prop) : Prop where
  refl : ∀ g, R g g
  trans : ∀ {g g' g''}, R g g' → R g' g'' → R g g''
  wm : ∀ g wm, R g { g with wm := wm }
  modify : ∀ {g g' win f}, g.modify win f = some g' → R g g'
  remove : ∀ g win, R g { g with heap := Function.update g.heap win none }

namespace Frame

variable {R : State → State → Prop} {fuel : Nat} {win : Ptr}

theorem marks (hR : Frame R) : MarkFrame R where
  refl := hR.refl
  trans := hR.trans
  wm := hR.wm
  mark _ h := hR.modify h

theorem insertSorted (hR : Frame R) (h : Gui.insertSorted fuel g win = some g') : R g g' :=
  hR.marks.insertSorted h

theorem focusWindow (hR : Frame R) {win : Option Ptr} (h : wmFocusWindow fuel g win = some g') :
    R g g' :=
  hR.marks.focusWindow h

theorem destroyWindow (hR : Frame R) {win : Option Ptr}
    (h : wmDestroyWindow fuel g win = some g') : R g g' := by
  unfold wmDestroyWindow at h
  split at h
  · obtain rfl := Option.some.inj h
    exact hR.refl _
  · obtain ⟨g₁, hg₁, h⟩ := Option.bind_eq_some_iff.mp h
    obtain ⟨g₂, hg₂, hg'⟩ := Option.bind_eq_some_iff.mp h
    obtain rfl := Option.some.inj hg'
    have hfreed : R g g₂ :=
      hR.trans (hR.marks.removeFromList hg₁) (hR.trans (hR.wm _ _) (hR.modify hg₂))
    exact hR.trans hfreed (hR.trans (hR.wm _ _) (hR.remove _ _))

theorem moveWindow (hR : Frame R) {win : Option Ptr} {x y : Int}
    (h : wmMoveWindow g win x y = some g') : R g g' := by
  unfold wmMoveWindow at h
  split at h
  · obtain rfl := Option.some.inj h
    exact hR.refl _
  · obtain ⟨g₁, hg₁, hg'⟩ := Option.bind_eq_some_iff.mp h
    obtain rfl := Option.some.inj hg'
    exact hR.trans (hR.modify hg₁) (hR.wm _ _)

/-- An early return. -/
theorem ret (hR : Frame R) {P : Prop} [Decidable P] {x : Option State}
    (h : (if P then some g else x) = some g') (hx : x = some g' → R g g') : R g g' := by
  split at h
  · obtain rfl := Option.some.inj h
    exact hR.refl _
  · exact hx h

theorem draw (hR : Frame R) {ss : List Store} (h : g.draw win ss = some g') : R g g' := by
  obtain ⟨g₁, hg₁, hg'⟩ := Option.bind_eq_some_iff.mp h
  obtain rfl := Option.some.inj hg'
  exact hR.trans (hR.modify hg₁) (hR.wm _ _)

theorem fillRect (hR : Frame R) {win : Option Ptr} {rx ry rw rh : Nat} {c : Color}
    (h : wmFillRect g win rx ry rw rh c = some g') : R g g' := by
  unfold wmFillRect at h
  split at h
  · obtain rfl := Option.some.inj h
    exact hR.refl _
  · obtain ⟨w, -, h⟩ := Option.bind_eq_some_iff.mp h
    exact hR.ret h fun h => hR.ret h hR.draw

theorem putpixel (hR : Frame R) {win : Option Ptr} {px py : Nat} {c : Color}
    (h : wmPutpixel g win px py c = some g') : R g g' := by
  unfold wmPutpixel at h
  split at h
  · obtain rfl := Option.some.inj h
    exact hR.refl _
  · obtain ⟨w, -, h⟩ := Option.bind_eq_some_iff.mp h
    exact hR.ret h fun h => hR.ret h hR.draw

theorem putchar (hR : Frame R) {win : Option Ptr} {ch : Int} {px py : Nat} {fg bg : Color}
    (h : wmPutchar g win ch px py fg bg = some g') : R g g' := by
  unfold wmPutchar at h
  split at h
  · obtain rfl := Option.some.inj h
    exact hR.refl _
  · obtain ⟨w, -, h⟩ := Option.bind_eq_some_iff.mp h
    exact hR.ret h fun h => hR.ret h fun h => hR.ret h hR.draw

theorem putsFrom (hR : Frame R) {px : Nat} {fg bg : Color} {bs : List UInt8} {cx cy : Nat}
    (h : Gui.putsFrom win px fg bg bs cx cy g = some g') : R g g' := by
  induction bs generalizing g cx cy with
  | nil =>
      obtain rfl := Option.some.inj h
      exact hR.refl _
  | cons b bs ih =>
      unfold Gui.putsFrom at h
      split at h
      · exact ih h
      · obtain ⟨g₁, hg₁, h⟩ := Option.bind_eq_some_iff.mp h
        obtain ⟨w, -, h⟩ := Option.bind_eq_some_iff.mp h
        dsimp only at h
        split at h
        · exact hR.trans (hR.putchar hg₁) (ih h)
        · exact hR.trans (hR.putchar hg₁) (ih h)

theorem puts (hR : Frame R) {win : Option Ptr} {s : Option CStr} {px py : Nat} {fg bg : Color}
    (h : wmPuts g win s px py fg bg = some g') : R g g' := by
  unfold wmPuts at h
  split at h
  · exact hR.putsFrom h
  · obtain rfl := Option.some.inj h
    exact hR.refl _

end Frame

/-- Only the windows and their list have changed. -/
structure OnlyWindows (g g' : State) : Prop where
  of_eq ::
  fb : g'.fb = g.fb
  cursor : g'.cursor = g.cursor
  buttonsLast : g'.buttonsLast = g.buttonsLast
  composites : g'.composites = g.composites

theorem OnlyWindows.trans (h : OnlyWindows g g') (h' : OnlyWindows g' g'') : OnlyWindows g g'' :=
  ⟨h'.fb.trans h.fb, h'.cursor.trans h.cursor, h'.buttonsLast.trans h.buttonsLast,
    h'.composites.trans h.composites⟩

theorem onlyWindows_frame : Frame OnlyWindows where
  refl _ := .of_eq rfl rfl rfl rfl
  trans h h' := h.trans h'
  wm _ _ := .of_eq rfl rfl rfl rfl
  modify h := by
    obtain ⟨w, -, hg'⟩ := Option.bind_eq_some_iff.mp h
    obtain rfl := Option.some.inj hg'
    exact .of_eq rfl rfl rfl rfl
  remove _ _ := .of_eq rfl rfl rfl rfl

theorem onlyWindows_createWindow {fuel : Nat} {x y : Int} {contentW contentH : Nat} {title : CStr}
    {object p : Option Ptr} {buffer : Option (Nat → Nat)}
    (h : wmCreateWindow fuel g x y contentW contentH title object buffer = some (g', p)) :
    OnlyWindows g g' := by
  unfold wmCreateWindow at h
  split at h
  · obtain ⟨rfl, -⟩ := Prod.mk.inj (Option.some.inj h)
    exact .of_eq rfl rfl rfl rfl
  split at h
  · obtain ⟨rfl, -⟩ := Prod.mk.inj (Option.some.inj h)
    exact .of_eq rfl rfl rfl rfl
  split at h
  · obtain ⟨rfl, -⟩ := Prod.mk.inj (Option.some.inj h)
    exact .of_eq rfl rfl rfl rfl
  · obtain ⟨z, -, h⟩ := Option.bind_eq_some_iff.mp h
    obtain ⟨g₁, hg₁, h⟩ := Option.bind_eq_some_iff.mp h
    obtain ⟨g₂, hg₂, h⟩ := Option.bind_eq_some_iff.mp h
    obtain ⟨g₃, hg₃, h⟩ := Option.bind_eq_some_iff.mp h
    obtain ⟨rfl, -⟩ := Prod.mk.inj (Option.some.inj h)
    have hinserted := (onlyWindows_frame.modify hg₁).trans (onlyWindows_frame.insertSorted hg₂)
    have hfocused := (onlyWindows_frame.wm _ _).trans (onlyWindows_frame.focusWindow hg₃)
    refine OnlyWindows.trans ?_ ((hinserted.trans hfocused).trans (onlyWindows_frame.wm _ _))
    exact .of_eq rfl rfl rfl rfl

end SRos.Gui
