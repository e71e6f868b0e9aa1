import SRos.Gui.Descriptor
import SRos.Lib.RingBuffer

/-!
# Clicks and the splitting of the event stream

The interrupts put mouse events into a ring, and `wm_update` reads the ring empty. It handles a
press of the left button when it reads the event, but only one press in a call: how the stream of
events is split into calls decides which presses are clicks.
-/

namespace SRos.Gui

open LinkedList

/-! ## The ring of mouse events (`src/drivers/mouse.c`) -/

def mouseBufferSize : Nat := 64

/-- `mouse_buffer`, `mouse_buf_head` and `mouse_buf_tail`. -/
structure MouseRing where
  slots : Nat → MouseEvent
  head : Nat
  tail : Nat

namespace MouseRing

def bufferPut (r : MouseRing) (ev : MouseEvent) : MouseRing :=
  let next := (r.head + 1) % mouseBufferSize
  if next ≠ r.tail then { r with slots := Function.update r.slots r.head ev, head := next } else r

def mouseRead (r : MouseRing) : Option (MouseEvent × MouseRing) :=
  if r.head = r.tail then none
  else some (r.slots r.tail, { r with tail := (r.tail + 1) % mouseBufferSize })

/-- The events that `mouse_read` returns until it finds the ring empty. -/
def drain : Nat → MouseRing → List MouseEvent × MouseRing
  | 0, r => ([], r)
  | fuel + 1, r =>
      match r.mouseRead with
      | none => ([], r)
      | some (ev, r) => (ev :: (drain fuel r).1, (drain fuel r).2)

/-- The events that are in the ring, oldest first. -/
structure Holds (r : MouseRing) (events : List MouseEvent) : Prop where
  tail_lt : r.tail < mouseBufferSize
  length_lt : events.length < mouseBufferSize
  head_eq : r.head = (r.tail + events.length) % mouseBufferSize
  contents : RingBuffer.contents mouseBufferSize r.slots r.tail events.length = events

variable {r : MouseRing} {ev : MouseEvent} {events : List MouseEvent}

theorem Holds.put (h : r.Holds events) (hroom : events.length + 1 < mouseBufferSize) :
    (r.bufferPut ev).Holds (events ++ [ev]) := by
  have hsize : mouseBufferSize = 64 := rfl
  have hhead := h.head_eq
  have htail := h.tail_lt
  have hnext : (r.head + 1) % mouseBufferSize ≠ r.tail := by
    rw [hhead, hsize]
    omega
  unfold bufferPut
  rw [if_pos hnext]
  refine ⟨htail, by rw [List.length_append]; exact hroom, ?_, ?_⟩
  · rw [List.length_append, List.length_singleton]
    simp only [hhead, hsize]
    omega
  · rw [List.length_append, List.length_singleton]
    simp only [hhead]
    rw [RingBuffer.contents_push (by omega), h.contents]

theorem Holds.read_cons (h : r.Holds (ev :: events)) :
    ∃ r', r.mouseRead = some (ev, r') ∧ r'.Holds events := by
  have hsize : mouseBufferSize = 64 := rfl
  have hhead := h.head_eq
  have htail := h.tail_lt
  have hlength := h.length_lt
  rw [List.length_cons] at hhead hlength
  have hne : r.head ≠ r.tail := by
    rw [hhead, hsize]
    omega
  have hcontents := h.contents
  rw [List.length_cons, RingBuffer.contents_pop htail (by omega), Nat.add_sub_cancel] at hcontents
  obtain ⟨hfirst, hrest⟩ := List.cons.inj hcontents
  refine ⟨{ r with tail := (r.tail + 1) % mouseBufferSize }, ?_, ?_⟩
  · unfold mouseRead
    rw [if_neg hne, hfirst]
  · refine ⟨Nat.mod_lt _ (by decide), by omega, ?_, hrest⟩
    simp only [hhead, hsize]
    omega

theorem Holds.read_nil (h : r.Holds []) : r.mouseRead = none := by
  have hhead := h.head_eq
  rw [List.length_nil, Nat.add_zero, Nat.mod_eq_of_lt h.tail_lt] at hhead
  exact if_pos hhead

/-- One `wm_update` reads the events that are in the ring and leaves it empty. -/
theorem Holds.drain {fuel : Nat} (h : r.Holds events) (hfuel : events.length < fuel) :
    (r.drain fuel).1 = events ∧ (r.drain fuel).2.Holds [] := by
  induction events generalizing r fuel with
  | nil =>
      obtain ⟨fuel, rfl⟩ : ∃ n, fuel = n + 1 := ⟨fuel - 1, by rw [List.length_nil] at hfuel; omega⟩
      rw [MouseRing.drain, h.read_nil]
      exact ⟨rfl, h⟩
  | cons ev events ih =>
      rw [List.length_cons] at hfuel
      obtain ⟨fuel, rfl⟩ : ∃ n, fuel = n + 1 := ⟨fuel - 1, by omega⟩
      obtain ⟨r', hread, hrest⟩ := h.read_cons
      obtain ⟨hevents, hempty⟩ := @ih r' fuel hrest (by omega)
      rw [MouseRing.drain, hread]
      exact ⟨congrArg (ev :: ·) hevents, hempty⟩

end MouseRing

/-! ## The events of an update -/

/-- The left button goes down with the event. -/
def leftPressed (last : Nat) (ev : MouseEvent) : Bool :=
  ev.buttons &&& mouseLeftBtn != 0 && last &&& mouseLeftBtn == 0

/-- An event that was read: whether it is a press, whether `wm_handle_click` was called for it, and
where the cursor and the framebuffer were. -/
structure Seen where
  pressed : Bool
  clicked : Bool
  at_ : Int × Int
  fbAddr : Nat

/-- `wmUpdateEvents` with a log of the events. -/
def logEvents (fuel : Nat) : List MouseEvent → State → Bool → Option (State × Bool × List Seen)
  | [], g, clickHandled => some (g, clickHandled, [])
  | ev :: evs, g, clickHandled => do
      let addr := g.fb.addr
      let g := cursorMove g ev.dx (-ev.dy)
      let pos := (g.cursor.x, g.cursor.y)
      let pressed := leftPressed g.buttonsLast ev
      if pressed && !clickHandled then
        let (g, _) ← wmHandleClick fuel g g.cursor.x g.cursor.y ev.buttons
        let (g, handled, log) ← logEvents fuel evs { g with buttonsLast := ev.buttons } true
        return (g, handled, ⟨pressed, true, pos, addr⟩ :: log)
      else
        let (g, handled, log) ← logEvents fuel evs { g with buttonsLast := ev.buttons } clickHandled
        return (g, handled, ⟨pressed, false, pos, addr⟩ :: log)

/-- `wmUpdate` with a log of the events. -/
def logUpdate (fuel : Nat) (g : State) (events : List MouseEvent) : Option (State × List Seen) := do
  let (g, clickHandled, log) ← logEvents fuel events g false
  if clickHandled then return (g, log)
  else if g.wm.needsComposite then
    let g ← wmComposite fuel g
    return (g, log)
  else return (g, log)

/-- The updates that read the batches one after another. -/
def logUpdates (fuel : Nat) : List (List MouseEvent) → State → Option (State × List Seen)
  | [], g => some (g, [])
  | batch :: batches, g => do
      let (g, log) ← logUpdate fuel g batch
      let (g, log') ← logUpdates fuel batches g
      return (g, log ++ log')

variable {fuel : Nat} {g g' g'' : State} {ev : MouseEvent} {evs : List MouseEvent}
  {handled handled' : Bool} {log : List Seen}

theorem leftPressed_iff {last : Nat} :
    leftPressed last ev = true ↔
      ev.buttons &&& mouseLeftBtn ≠ 0 ∧ last &&& mouseLeftBtn = 0 := by
  simp [leftPressed]

/-- Without its log the loop is that of `wm_update`. -/
theorem logEvents_eq (fuel : Nat) (evs : List MouseEvent) (g : State) (handled : Bool) :
    (logEvents fuel evs g handled).map (fun r => (r.1, r.2.1)) =
      wmUpdateEvents fuel evs g handled := by
  induction evs generalizing g handled with
  | nil => rfl
  | cons ev evs ih =>
      unfold logEvents wmUpdateEvents
      dsimp only
      by_cases hclick : leftPressed (cursorMove g ev.dx (-ev.dy)).buttonsLast ev = true ∧
          handled = false
      · obtain ⟨hpress, rfl⟩ := hclick
        rw [if_pos (by simp [hpress]), if_pos ⟨(leftPressed_iff.mp hpress).1,
          (leftPressed_iff.mp hpress).2, rfl⟩]
        cases wmHandleClick fuel (cursorMove g ev.dx (-ev.dy)) (cursorMove g ev.dx (-ev.dy)).cursor.x
          (cursorMove g ev.dx (-ev.dy)).cursor.y ev.buttons with
        | none => rfl
        | some r =>
            have hrest := ih { r.1 with buttonsLast := ev.buttons } true
            simp only [Option.bind_eq_bind, Option.bind_some]
            rw [← hrest]
            cases logEvents fuel evs { r.1 with buttonsLast := ev.buttons } true with
            | none => rfl
            | some r' => rfl
      · have hnot : ¬ (leftPressed (cursorMove g ev.dx (-ev.dy)).buttonsLast ev && !handled) = true := by
          rw [Bool.and_eq_true, Bool.not_eq_true']
          exact hclick
        rw [if_neg hnot, if_neg fun h => hclick ⟨leftPressed_iff.mpr ⟨h.1, h.2.1⟩, h.2.2⟩, ← ih]
        cases logEvents fuel evs
          { cursorMove g ev.dx (-ev.dy) with buttonsLast := ev.buttons } handled with
        | none => rfl
        | some r => rfl

theorem logUpdate_eq (fuel : Nat) (g : State) (events : List MouseEvent) :
    (logUpdate fuel g events).map Prod.fst = wmUpdate fuel g events := by
  unfold logUpdate wmUpdate
  rw [← logEvents_eq]
  cases logEvents fuel events g false with
  | none => rfl
  | some r =>
      obtain ⟨g₁, handled, log⟩ := r
      simp only [Option.bind_eq_bind, Option.bind_some, Option.map_some]
      split
      · rfl
      · split
        · cases wmComposite fuel g₁ with
          | none => rfl
          | some g₂ => rfl
        · rfl

/-! ## Presses and clicks -/

/-- Where the cursor was at the presses of the left button. -/
def presses (log : List Seen) : List (Int × Int) := (log.filter Seen.pressed).map Seen.at_

/-- The arguments of the calls of `wm_handle_click`. -/
def clicks (log : List Seen) : List (Int × Int) := (log.filter Seen.clicked).map Seen.at_

/-- The presses in a list of events. -/
def pressCount : Nat → List MouseEvent → Nat
  | _, [] => 0
  | last, ev :: evs => (if leftPressed last ev then 1 else 0) + pressCount ev.buttons evs

/-- The buttons after a list of events. -/
def lastButtons : Nat → List MouseEvent → Nat
  | last, [] => last
  | _, ev :: evs => lastButtons ev.buttons evs

/-- No batch has two presses. -/
def OneEach : Nat → List (List MouseEvent) → Prop
  | _, [] => True
  | last, batch :: batches =>
      pressCount last batch ≤ 1 ∧ OneEach (lastButtons last batch) batches

/-- The pointer is where it was, and the screen has the same size. -/
structure Pointed (g g' : State) : Prop where
  x : g'.cursor.x = g.cursor.x
  y : g'.cursor.y = g.cursor.y
  visible : g'.cursor.visible = g.cursor.visible
  width : g'.fb.width = g.fb.width
  height : g'.fb.height = g.fb.height
  buttonsLast : g'.buttonsLast = g.buttonsLast

theorem Pointed.trans (h : Pointed g g') (h' : Pointed g' g'') : Pointed g g'' :=
  ⟨h'.x.trans h.x, h'.y.trans h.y, h'.visible.trans h.visible, h'.width.trans h.width,
    h'.height.trans h.height, h'.buttonsLast.trans h.buttonsLast⟩

theorem OnlyWindows.pointed (h : OnlyWindows g g') : Pointed g g' := by
  obtain ⟨hfb, hcursor, hlast, -⟩ := h
  exact ⟨by rw [hcursor], by rw [hcursor], by rw [hcursor], by rw [hfb], by rw [hfb], hlast⟩

theorem pointed_saveDraw (g : State) : Pointed g (drawCursor (saveBackground g)) := by
  unfold drawCursor saveBackground
  split
  · exact ⟨rfl, rfl, rfl, rfl, rfl, rfl⟩
  · exact ⟨rfl, rfl, rfl, rfl, rfl, rfl⟩

theorem pointed_remove (b : Bool) : Pointed g (bif b then cursorRemove g else g) := by
  cases b with
  | false => exact ⟨rfl, rfl, rfl, rfl, rfl, rfl⟩
  | true =>
      simp only [cond_true, cursorRemove]
      split
      · exact ⟨rfl, rfl, rfl, rfl, rfl, rfl⟩
      · exact ⟨rfl, rfl, rfl, rfl, rfl, rfl⟩

theorem pointed_restore (b : Bool) : Pointed g (bif b then cursorRestore g else g) := by
  cases b with
  | false => exact ⟨rfl, rfl, rfl, rfl, rfl, rfl⟩
  | true =>
      simp only [cond_true, cursorRestore]
      split
      · exact ⟨rfl, rfl, rfl, rfl, rfl, rfl⟩
      · refine Pointed.trans ?_ (pointed_saveDraw _)
        exact ⟨rfl, rfl, rfl, rfl, rfl, rfl⟩

theorem pointed_compositeWindows (ws : List (Ptr × Window)) :
    Pointed g (ws.foldl compositeWindow g) := by
  induction ws generalizing g with
  | nil => exact ⟨rfl, rfl, rfl, rfl, rfl, rfl⟩
  | cons w ws ih =>
      rw [List.foldl_cons]
      refine Pointed.trans ?_ ih
      unfold compositeWindow
      split
      · exact ⟨rfl, rfl, rfl, rfl, rfl, rfl⟩
      · exact ⟨rfl, rfl, rfl, rfl, rfl, rfl⟩

theorem pointed_redraw (h : redraw fuel g = some g') : Pointed g g' := by
  unfold redraw at h
  split at h
  · obtain rfl := Option.some.inj h
    exact ⟨rfl, rfl, rfl, rfl, rfl, rfl⟩
  · obtain ⟨ws, -, h⟩ := Option.bind_eq_some_iff.mp h
    obtain rfl := Option.some.inj h
    exact pointed_compositeWindows ws

theorem pointed_wmComposite (h : wmComposite fuel g = some g') : Pointed g g' := by
  obtain ⟨g₁, hbody, hg'⟩ := Option.bind_eq_some_iff.mp h
  obtain rfl := Option.some.inj hg'
  suffices hpointed : Pointed g g₁ by
    exact hpointed.trans ⟨rfl, rfl, rfl, rfl, rfl, rfl⟩
  unfold compositeBody at hbody
  split at hbody
  · obtain rfl := Option.some.inj hbody
    exact ⟨rfl, rfl, rfl, rfl, rfl, rfl⟩
  split at hbody
  · obtain rfl := Option.some.inj hbody
    exact ⟨rfl, rfl, rfl, rfl, rfl, rfl⟩
  · obtain ⟨g₂, hredraw, hbody⟩ := Option.bind_eq_some_iff.mp hbody
    obtain rfl := Option.some.inj hbody
    refine ((pointed_remove _).trans (pointed_redraw hredraw)).trans
      ((pointed_restore g.cursor.visible).trans ?_)
    exact ⟨rfl, rfl, rfl, rfl, rfl, rfl⟩

theorem pointed_frame : Frame Pointed where
  refl g := (onlyWindows_frame.refl g).pointed
  trans h h' := h.trans h'
  wm g wm := (onlyWindows_frame.wm g wm).pointed
  modify h := (onlyWindows_frame.modify h).pointed
  remove g win := (onlyWindows_frame.remove g win).pointed

theorem pointed_wmHandleClick {x y : Int} {buttons : Nat} {r : Bool}
    (h : wmHandleClick fuel g x y buttons = some (g', r)) : Pointed g g' :=
  pointed_frame.handleClick pointed_wmComposite h

/-- What one event adds to the log, and how the loop goes on. -/
theorem logEvents_cons (h : logEvents fuel (ev :: evs) g handled = some (g', handled', log)) :
    ∃ g₁ log₁, Pointed (cursorMove g ev.dx (-ev.dy)) g₁ ∧
      logEvents fuel evs { g₁ with buttonsLast := ev.buttons }
        (handled || leftPressed (cursorMove g ev.dx (-ev.dy)).buttonsLast ev) =
          some (g', handled', log₁) ∧
      log = ⟨leftPressed (cursorMove g ev.dx (-ev.dy)).buttonsLast ev,
        leftPressed (cursorMove g ev.dx (-ev.dy)).buttonsLast ev && !handled,
        ((cursorMove g ev.dx (-ev.dy)).cursor.x, (cursorMove g ev.dx (-ev.dy)).cursor.y),
        g.fb.addr⟩ :: log₁ := by
  unfold logEvents at h
  dsimp only at h
  generalize cursorMove g ev.dx (-ev.dy) = g₀ at h ⊢
  cases hclick : leftPressed g₀.buttonsLast ev && !handled with
  | true =>
      obtain ⟨hpress, hnot⟩ := Bool.and_eq_true_iff.mp hclick
      rw [if_pos hclick] at h
      obtain ⟨⟨g₁, r⟩, hg₁, h⟩ := Option.bind_eq_some_iff.mp h
      obtain ⟨⟨g₂, handled₂, log₂⟩, hrest, h⟩ := Option.bind_eq_some_iff.mp h
      obtain ⟨rfl, rfl, rfl⟩ := by simpa using h
      refine ⟨g₁, log₂, pointed_wmHandleClick hg₁, ?_, rfl⟩
      rw [hpress, Bool.or_true]
      exact hrest
  | false =>
      rw [if_neg (by rw [hclick]; decide)] at h
      obtain ⟨⟨g₂, handled₂, log₂⟩, hrest, h⟩ := Option.bind_eq_some_iff.mp h
      obtain ⟨rfl, rfl, rfl⟩ := by simpa using h
      refine ⟨g₀, log₂, ⟨rfl, rfl, rfl, rfl, rfl, rfl⟩, ?_, rfl⟩
      cases handled with
      | true => simpa using hrest
      | false =>
          rw [Bool.not_false, Bool.and_true] at hclick
          rw [hclick]
          exact hrest

theorem cursorMove_buttonsLast (g : State) (dx dy : Int) :
    (cursorMove g dx dy).buttonsLast = g.buttonsLast := by
  unfold cursorMove
  split
  · rfl
  · dsimp only
    split
    · rfl
    · unfold restoreBackground
      split
      · exact (pointed_saveDraw _).buttonsLast
      · exact (pointed_saveDraw _).buttonsLast

/-- In a call the first press that has not been handled is a click. -/
theorem logEvents_spec (h : logEvents fuel evs g handled = some (g', handled', log)) :
    g'.buttonsLast = lastButtons g.buttonsLast evs ∧
      (presses log).length = pressCount g.buttonsLast evs ∧
      clicks log = if handled then [] else (presses log).take 1 := by
  induction evs generalizing g handled log with
  | nil =>
      obtain ⟨rfl, rfl, rfl⟩ := by simpa [logEvents] using h
      refine ⟨rfl, rfl, ?_⟩
      split
      · rfl
      · rfl
  | cons ev evs ih =>
      obtain ⟨g₁, log₁, -, hrest, rfl⟩ := logEvents_cons h
      obtain ⟨hlast, hcount, hclicks⟩ := ih hrest
      rw [cursorMove_buttonsLast] at hclicks
      rw [cursorMove_buttonsLast]
      refine ⟨hlast, ?_, ?_⟩
      · unfold presses at hcount ⊢
        rw [List.length_map] at hcount
        rw [pressCount, List.length_map]
        cases leftPressed g.buttonsLast ev with
        | true => rw [List.filter_cons_of_pos rfl, List.length_cons, hcount, if_pos rfl, Nat.add_comm]
        | false => rw [List.filter_cons_of_neg (by simp), hcount, if_neg (by simp), Nat.zero_add]
      · unfold presses clicks at hclicks ⊢
        generalize leftPressed g.buttonsLast ev = pressed at hclicks ⊢
        cases pressed with
        | true =>
            rw [Bool.or_true, if_pos rfl] at hclicks
            cases handled with
            | true =>
                rw [List.filter_cons_of_neg (by simp), hclicks, if_pos rfl]
            | false =>
                rw [List.filter_cons_of_pos rfl, List.map_cons, hclicks, if_neg (by simp),
                  List.filter_cons_of_pos rfl]
                rfl
        | false =>
            rw [Bool.or_false] at hclicks
            rw [List.filter_cons_of_neg (by simp), List.filter_cons_of_neg (by simp), hclicks]

theorem pointed_end (h : logUpdate fuel g evs = some (g', log)) :
    ∃ g₁ handled, logEvents fuel evs g false = some (g₁, handled, log) ∧ Pointed g₁ g' := by
  obtain ⟨⟨g₁, handled, log₁⟩, hloop, h⟩ := Option.bind_eq_some_iff.mp h
  dsimp only at h
  split at h
  · obtain ⟨rfl, rfl⟩ := by simpa using h
    exact ⟨g₁, handled, hloop, rfl, rfl, rfl, rfl, rfl, rfl⟩
  · split at h
    · obtain ⟨g₂, hg₂, h⟩ := Option.bind_eq_some_iff.mp h
      obtain ⟨rfl, rfl⟩ := by simpa using h
      exact ⟨g₁, handled, hloop, pointed_wmComposite hg₂⟩
    · obtain ⟨rfl, rfl⟩ := by simpa using h
      exact ⟨g₁, handled, hloop, rfl, rfl, rfl, rfl, rfl, rfl⟩

theorem clicks_append (log log' : List Seen) : clicks (log ++ log') = clicks log ++ clicks log' := by
  simp [clicks]

theorem presses_append (log log' : List Seen) :
    presses (log ++ log') = presses log ++ presses log' := by
  simp [presses]

/-- A call makes a click of every press exactly when it reads one press at most. -/
theorem logUpdate_spec (h : logUpdate fuel g evs = some (g', log)) :
    g'.buttonsLast = lastButtons g.buttonsLast evs ∧ (clicks log).length ≤ (presses log).length ∧
      (clicks log = presses log ↔ pressCount g.buttonsLast evs ≤ 1) := by
  obtain ⟨g₁, handled, hloop, hpointed⟩ := pointed_end h
  obtain ⟨hlast, hcount, hclicks⟩ := logEvents_spec hloop
  rw [if_neg (by simp)] at hclicks
  refine ⟨hpointed.buttonsLast.trans hlast, ?_, ?_⟩
  · rw [hclicks, List.length_take]
    exact min_le_right _ _
  · rw [hclicks, ← hcount]
    refine ⟨fun heq => ?_, List.take_of_length_le⟩
    rw [← heq, List.length_take]
    exact min_le_left _ _

theorem clicks_length_le {batches : List (List MouseEvent)}
    (h : logUpdates fuel batches g = some (g', log)) :
    (clicks log).length ≤ (presses log).length := by
  induction batches generalizing g log with
  | nil =>
      obtain ⟨rfl, rfl⟩ := by simpa [logUpdates] using h
      exact le_rfl
  | cons batch batches ih =>
      obtain ⟨⟨g₁, log₁⟩, hfirst, h⟩ := Option.bind_eq_some_iff.mp h
      obtain ⟨⟨g₂, log₂⟩, hrest, h⟩ := Option.bind_eq_some_iff.mp h
      obtain ⟨rfl, rfl⟩ := by simpa using h
      obtain ⟨-, hle, -⟩ := logUpdate_spec hfirst
      have hle' := ih hrest
      rw [clicks_append, presses_append, List.length_append, List.length_append]
      omega

theorem clicks_eq_iff {batches : List (List MouseEvent)}
    (h : logUpdates fuel batches g = some (g', log)) :
    clicks log = presses log ↔ OneEach g.buttonsLast batches := by
  induction batches generalizing g log with
  | nil =>
      obtain ⟨rfl, rfl⟩ := by simpa [logUpdates] using h
      exact ⟨fun _ => trivial, fun _ => rfl⟩
  | cons batch batches ih =>
      obtain ⟨⟨g₁, log₁⟩, hfirst, h⟩ := Option.bind_eq_some_iff.mp h
      obtain ⟨⟨g₂, log₂⟩, hrest, h⟩ := Option.bind_eq_some_iff.mp h
      obtain ⟨rfl, rfl⟩ := by simpa using h
      obtain ⟨hlast, hle, hone⟩ := logUpdate_spec hfirst
      have hle' := clicks_length_le hrest
      have hih := ih hrest
      rw [hlast] at hih
      rw [clicks_append, presses_append, OneEach, ← hone, ← hih]
      refine ⟨fun heq => ?_, fun ⟨heq, heq'⟩ => by rw [heq, heq']⟩
      -- no call has more clicks than presses, so that the lists are equal call by call
      have hlength := congrArg List.length heq
      rw [List.length_append, List.length_append] at hlength
      exact List.append_inj heq (by omega)

/-! ## Positions -/

/-- The pointer after an event, if nothing else happens. -/
def point (p : State) (ev : MouseEvent) : State :=
  { cursorMove p ev.dx (-ev.dy) with buttonsLast := ev.buttons }

/-- Where the pointer is at the presses of a list of events. -/
def pressesOf : State → List MouseEvent → List (Int × Int)
  | _, [] => []
  | p, ev :: evs =>
      (if leftPressed p.buttonsLast ev then [((point p ev).cursor.x, (point p ev).cursor.y)] else []) ++
        pressesOf (point p ev) evs

theorem pressesOf_append (p : State) (evs evs' : List MouseEvent) :
    pressesOf p (evs ++ evs') = pressesOf p evs ++ pressesOf (evs.foldl point p) evs' := by
  induction evs generalizing p with
  | nil => rfl
  | cons ev evs ih =>
      rw [List.cons_append, pressesOf, pressesOf, ih, List.append_assoc]
      rfl

theorem pointed_cursorMove (hvisible : g.cursor.visible = true) (haddr : g.fb.addr ≠ 0)
    (dx dy : Int) :
    Pointed { g with cursor := { g.cursor with
      x := clampPosition (i32 (g.cursor.x + dx)) g.fb.width cursorWidth
      y := clampPosition (i32 (g.cursor.y + dy)) g.fb.height cursorHeight } }
      (cursorMove g dx dy) := by
  unfold cursorMove
  rw [if_neg (by simp [hvisible, haddr])]
  dsimp only
  split
  · exact ⟨rfl, rfl, rfl, rfl, rfl, rfl⟩
  · refine Pointed.trans ?_ (pointed_saveDraw _)
    unfold restoreBackground
    rw [if_neg haddr]
    exact ⟨rfl, rfl, rfl, rfl, rfl, rfl⟩

/-- On a mapped framebuffer a move depends on the pointer only. -/
theorem Pointed.cursorMove {p : State} (h : Pointed p g) (hg : g.fb.addr ≠ 0) (hp : p.fb.addr ≠ 0)
    (dx dy : Int) : Pointed (Gui.cursorMove p dx dy) (Gui.cursorMove g dx dy) := by
  cases hvisible : p.cursor.visible with
  | true =>
      have hmove := pointed_cursorMove hvisible hp dx dy
      have hmove' := pointed_cursorMove (h.visible.trans hvisible) hg dx dy
      rw [h.x, h.y, h.width, h.height] at hmove'
      exact ⟨hmove'.x.trans hmove.x.symm, hmove'.y.trans hmove.y.symm,
        (hmove'.visible.trans h.visible).trans hmove.visible.symm,
        (hmove'.width.trans h.width).trans hmove.width.symm,
        (hmove'.height.trans h.height).trans hmove.height.symm,
        (hmove'.buttonsLast.trans h.buttonsLast).trans hmove.buttonsLast.symm⟩
  | false =>
      have hstay : Gui.cursorMove p dx dy = p := if_pos (.inl (by rw [hvisible]; rfl))
      have hstay' : Gui.cursorMove g dx dy = g :=
        if_pos (.inl (by rw [h.visible, hvisible]; rfl))
      rw [hstay, hstay']
      exact h

/-- The presses of a call are at the positions of the pointer, whatever the call draws. -/
theorem logEvents_presses {p : State} (h : logEvents fuel evs g handled = some (g', handled', log))
    (hpoint : Pointed p g) (hp : p.fb.addr ≠ 0) (hlog : ∀ e ∈ log, e.fbAddr ≠ 0) :
    presses log = pressesOf p evs ∧ Pointed (evs.foldl point p) g' ∧
      (evs.foldl point p).fb.addr ≠ 0 := by
  induction evs generalizing g p handled log with
  | nil =>
      obtain ⟨rfl, rfl, rfl⟩ := by simpa [logEvents] using h
      exact ⟨rfl, hpoint, hp⟩
  | cons ev evs ih =>
      obtain ⟨g₁, log₁, hsame, hrest, rfl⟩ := logEvents_cons h
      have haddr : g.fb.addr ≠ 0 := hlog _ List.mem_cons_self
      have hmove := hpoint.cursorMove haddr hp ev.dx (-ev.dy)
      have hpoint₁ : Pointed (point p ev) { g₁ with buttonsLast := ev.buttons } := by
        obtain ⟨hx, hy, hvisible, hwidth, hheight, -⟩ := hmove.trans hsame
        exact ⟨hx, hy, hvisible, hwidth, hheight, rfl⟩
      have hp₁ : (point p ev).fb.addr ≠ 0 := by
        change (Gui.cursorMove p ev.dx (-ev.dy)).fb.addr ≠ 0
        rw [(painted_cursorMove _ _).fb]
        exact hp
      obtain ⟨hpresses, hend, haddr'⟩ := ih hrest hpoint₁ hp₁ fun e he => hlog e (.tail _ he)
      refine ⟨?_, hend, haddr'⟩
      rw [pressesOf, ← hpresses, cursorMove_buttonsLast, hpoint.buttonsLast]
      unfold presses
      cases leftPressed p.buttonsLast ev with
      | true =>
          rw [List.filter_cons_of_pos rfl, List.map_cons, hmove.x, hmove.y]
          rfl
      | false =>
          rw [List.filter_cons_of_neg (by simp)]
          rfl

theorem logUpdates_presses {batches : List (List MouseEvent)} {p : State}
    (h : logUpdates fuel batches g = some (g', log)) (hpoint : Pointed p g) (hp : p.fb.addr ≠ 0)
    (hlog : ∀ e ∈ log, e.fbAddr ≠ 0) : presses log = pressesOf p batches.flatten := by
  induction batches generalizing g p log with
  | nil =>
      obtain ⟨rfl, rfl⟩ := by simpa [logUpdates] using h
      rfl
  | cons batch batches ih =>
      obtain ⟨⟨g₁, log₁⟩, hfirst, h⟩ := Option.bind_eq_some_iff.mp h
      obtain ⟨⟨g₂, log₂⟩, hrest, h⟩ := Option.bind_eq_some_iff.mp h
      obtain ⟨rfl, rfl⟩ := by simpa using h
      obtain ⟨g₃, handled, hloop, hend⟩ := pointed_end hfirst
      obtain ⟨hpresses, hpoint₃, hp₃⟩ := logEvents_presses hloop hpoint hp
        fun e he => hlog e (List.mem_append_left _ he)
      have hrest' := ih hrest (hpoint₃.trans hend) hp₃ fun e he => hlog e (List.mem_append_right _ he)
      rw [presses_append, hpresses, hrest', List.flatten_cons, pressesOf_append]

/-- Every call ends on a sound list of windows. -/
theorem Sound.logUpdates {bound : Nat} {batches : List (List MouseEvent)} (h : Sound g bound)
    (hlt : bound + batches.length < 2 ^ 32) (hfuel : 16 ≤ fuel) :
    ∃ g' log, Gui.logUpdates fuel batches g = some (g', log) := by
  induction batches generalizing g bound with
  | nil => exact ⟨g, [], rfl⟩
  | cons batch batches ih =>
      rw [List.length_cons] at hlt
      obtain ⟨g₁, hg₁, hsound⟩ := h.update (by omega) hfuel batch
      rw [← logUpdate_eq] at hg₁
      obtain ⟨⟨g₂, log⟩, hlog, rfl⟩ := Option.map_eq_some_iff.mp hg₁
      obtain ⟨g', log', hrest⟩ := ih hsound (by omega)
      refine ⟨g', log ++ log', ?_⟩
      unfold Gui.logUpdates
      rw [hlog]
      simp only [Option.bind_eq_bind, Option.bind_some, hrest]
      rfl

/-- For every state and every splitting of the mouse events into calls of `wm_update`: the calls
end when the list of windows is sound, and they call `wm_handle_click` once for every press of
the left button, at the position of the cursor, if and only if no call reads two presses. As long
as the framebuffer is mapped, these positions are given by the events, and not by the splitting. -/
theorem clicks_of_presses_iff (hfuel : 16 ≤ fuel) (batches : List (List MouseEvent)) :
    (∀ bound, Sound g bound → bound + batches.length < 2 ^ 32 →
      ∃ g' log, logUpdates fuel batches g = some (g', log)) ∧
    ∀ g' log, logUpdates fuel batches g = some (g', log) →
      (clicks log = presses log ↔ OneEach g.buttonsLast batches) ∧
      (g.fb.addr ≠ 0 → (∀ e ∈ log, e.fbAddr ≠ 0) → presses log = pressesOf g batches.flatten) := by
  refine ⟨fun bound hsound hlt => hsound.logUpdates hlt hfuel, fun g' log h => ?_⟩
  refine ⟨clicks_eq_iff h, fun haddr hlog => ?_⟩
  exact logUpdates_presses h ⟨rfl, rfl, rfl, rfl, rfl, rfl⟩ haddr hlog

/-- A screen of 16x16 pixels without windows. -/
def smallScreen : State := cursorInit (wmInit (.boot ⟨16, 16, 64, 32, virtBase, 0⟩ fun _ => 0))

/-- The left button goes down. -/
def press : MouseEvent := ⟨1, 0, 0⟩

/-- The left button goes up. -/
def release : MouseEvent := ⟨0, 0, 0⟩

theorem sound_smallScreen : Sound smallScreen 0 :=
  painted_cursorInit.sameList.sound (sound_wmInit fun _ => rfl)

/-- Two presses that two calls read are two clicks. -/
theorem clicks_of_two_presses : ∃ g log,
    logUpdates 16 [[press], [release, press]] smallScreen = some (g, log) ∧
      clicks log = presses log := by
  obtain ⟨hends, hiff⟩ := @clicks_of_presses_iff 16 smallScreen le_rfl [[press], [release, press]]
  obtain ⟨g, log, hrun⟩ := hends 0 sound_smallScreen (by decide)
  have hone : OneEach smallScreen.buttonsLast [[press], [release, press]] :=
    ⟨by decide, by decide, trivial⟩
  exact ⟨g, log, hrun, (hiff g log hrun).1.mpr hone⟩

/-- Two presses that one call reads are one click, and two clicks when two calls read them. -/
theorem clicks_of_one_call : Sound smallScreen 0 ∧
    (∃ g log, logUpdates 16 [[press, release, press]] smallScreen = some (g, log) ∧
      clicks log ≠ presses log ∧ (clicks log).length = 1) ∧
    ∃ g log, logUpdates 16 [[press], [release, press]] smallScreen = some (g, log) ∧
      (clicks log).length = 2 := by
  have hone : (logUpdates 16 [[press, release, press]] smallScreen).any
      (fun r => decide (clicks r.2 ≠ presses r.2) && (clicks r.2).length == 1) = true := by
    decide +kernel
  have htwo : (logUpdates 16 [[press], [release, press]] smallScreen).any
      (fun r => (clicks r.2).length == 2) = true := by
    decide +kernel
  obtain ⟨⟨g, log⟩, hrun, htest⟩ := (Option.any_eq_true _ _).mp hone
  obtain ⟨⟨g', log'⟩, hrun', htest'⟩ := (Option.any_eq_true _ _).mp htwo
  obtain ⟨hne, hlen⟩ := Bool.and_eq_true_iff.mp htest
  exact ⟨sound_smallScreen, ⟨g, log, hrun, of_decide_eq_true hne, by simpa using hlen⟩, g', log', hrun',
    by simpa using htest'⟩

end SRos.Gui
