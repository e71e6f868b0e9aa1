import SRos.Gui.Model
import Mathlib.Data.List.Perm.Basic

/-!
# The stack of windows

What the window list is for: the windows lie on top of each other, and the one with the focus
is the topmost. `Stacking` says this on its own, `Stacked` connects it to the linked list with
its z-orders, and each function that changes the list is shown to do what it stands for.
-/

namespace SRos.Gui

open LinkedList Queue

/-- Windows from the bottom to the top. Only the topmost one can have the focus. -/
structure Stacking (ι : Type) where
  order : List ι
  focus : Option ι
  nodup : order.Nodup
  top : ∀ p, focus = some p → order.getLast? = some p

namespace Stacking

variable {ι : Type} [DecidableEq ι]

omit [DecidableEq ι] in
theorem focus_mem (s : Stacking ι) {p : ι} (h : s.focus = some p) : p ∈ s.order :=
  List.mem_of_getLast? (s.top p h)

def empty : Stacking ι := ⟨[], none, List.nodup_nil, by simp⟩

/-- Brings `p` to the top and gives it the focus. -/
def raise (s : Stacking ι) (p : ι) : Stacking ι where
  order := s.order.erase p ++ [p]
  focus := some p
  nodup := by
    have hp : p ∉ s.order.erase p := s.nodup.not_mem_erase
    rw [List.nodup_append]
    refine ⟨s.nodup.erase p, List.nodup_singleton p, ?_⟩
    intro a ha b hb hab
    have hap : a = p := hab.trans (List.mem_singleton.mp hb)
    exact hp (hap ▸ ha)
  top := by simp

theorem getLast?_erase {ws : List ι} {p q : ι} (h : ws.getLast? = some q) (hpq : p ≠ q) :
    (ws.erase p).getLast? = some q := by
  obtain ⟨init, rfl⟩ := List.getLast?_eq_some_iff.mp h
  by_cases hp : p ∈ init
  · simp [List.erase_append_left _ hp]
  · have hnot : p ∉ [q] := by simpa using hpq
    simp [List.erase_append_right _ hp, List.erase_of_not_mem hnot]

/-- Takes `p` off the stack. -/
def close (s : Stacking ι) (p : ι) : Stacking ι where
  order := s.order.erase p
  focus := if s.focus = some p then none else s.focus
  nodup := s.nodup.erase p
  top := by
    intro q hq
    split at hq
    · cases hq
    · next hne => exact getLast?_erase (s.top q hq) fun he => hne (he ▸ hq)

/-- Raising the window that has the focus changes nothing. -/
theorem raise_focus (s : Stacking ι) {p : ι} (h : s.focus = some p) :
    (s.raise p).order = s.order ∧ (s.raise p).focus = s.focus := by
  obtain ⟨init, hinit⟩ := List.getLast?_eq_some_iff.mp (s.top p h)
  have hnd := s.nodup
  rw [hinit] at hnd
  have hp : p ∉ init := fun hm => (List.nodup_append.mp hnd).2.2 p hm p (by simp) rfl
  constructor
  · simp [raise, hinit, List.erase_append_right _ hp]
  · exact h.symm

end Stacking

/-! ## What the heap says about a window -/

def zOf (heap : Ptr → Option Window) (p : Ptr) : Nat := ((heap p).map Window.zOrder).getD 0

def flagOf (heap : Ptr → Option Window) (p : Ptr) : Bool :=
  ((heap p).map Window.focused).getD false

def Live (heap : Ptr → Option Window) (p : Ptr) : Prop := (heap p).isSome = true

variable {heap heap' : Ptr → Option Window} {p win : Ptr} {w : Window}

theorem Live.exists (h : Live heap p) : ∃ w, heap p = some w := Option.isSome_iff_exists.mp h

theorem zOf_eq (h : heap p = some w) : zOf heap p = w.zOrder := by simp [zOf, h]

theorem flagOf_eq (h : heap p = some w) : flagOf heap p = w.focused := by simp [flagOf, h]

theorem zOf_update : zOf (Function.update heap p (some w)) = Function.update (zOf heap) p w.zOrder := by
  funext q
  by_cases hq : q = p
  · subst hq; simp [zOf]
  · simp [zOf, Function.update_of_ne hq]

theorem flagOf_update :
    flagOf (Function.update heap p (some w)) = Function.update (flagOf heap) p w.focused := by
  funext q
  by_cases hq : q = p
  · subst hq; simp [flagOf]
  · simp [flagOf, Function.update_of_ne hq]

theorem live_update {q : Ptr} :
    Live (Function.update heap p (some w)) q ↔ q = p ∨ Live heap q := by
  by_cases hq : q = p
  · subst hq; simp [Live]
  · simp [Live, hq]

/-- The two heaps hold the same windows up to their pointers and what is drawn in them. -/
structure SameStack (heap heap' : Ptr → Option Window) : Prop where
  z : zOf heap' = zOf heap
  flag : flagOf heap' = flagOf heap
  live : ∀ p, Live heap' p ↔ Live heap p

theorem SameStack.refl (heap : Ptr → Option Window) : SameStack heap heap :=
  ⟨rfl, rfl, fun _ => Iff.rfl⟩

theorem SameStack.trans {heap'' : Ptr → Option Window} (h : SameStack heap heap')
    (h' : SameStack heap' heap'') : SameStack heap heap'' :=
  ⟨h'.z.trans h.z, h'.flag.trans h.flag, fun p => (h'.live p).trans (h.live p)⟩

theorem SameStack.update {w' : Window} (hw : heap p = some w) (hz : w'.zOrder = w.zOrder)
    (hf : w'.focused = w.focused) : SameStack heap (Function.update heap p (some w')) := by
  refine ⟨?_, ?_, fun q => ?_⟩
  · rw [zOf_update, hz, ← zOf_eq hw, Function.update_eq_self]
  · rw [flagOf_update, hf, ← flagOf_eq hw, Function.update_eq_self]
  · rw [live_update]
    constructor
    · intro h
      rcases h with rfl | h
      · simp [Live, hw]
      · exact h
    · exact .inr

/-! ## The list operations -/

section Lists

variable {g : State} {ws : List Ptr} {fuel : Nat}

theorem modify_eq (hw : g.heap win = some w) (f : Window → Window) :
    g.modify win f = some { g with heap := Function.update g.heap win (some (f w)) } := by
  simp [State.modify, hw]

/-- The list of `g` has become `ws`, and nothing else of the stack has changed. -/
structure Relinked (g g' : State) (ws : List Ptr) : Prop where
  focused : g'.wm.focused = g.wm.focused
  count : g'.wm.count = g.wm.count
  same : SameStack g.heap g'.heap
  linked : Linked g'.heap Window.next g'.wm.windows ws

/-- Taking a window out of the list. -/
theorem removeFromList_spec (h : Linked g.heap Window.next g.wm.windows ws) (hnd : ws.Nodup)
    (hwin : win ∈ ws) (hfuel : ws.length ≤ fuel) :
    ∃ g', removeFromList fuel g win = some g' ∧ Relinked g g' (ws.erase win) := by
  cases ws with
  | nil => simp at hwin
  | cons p ws =>
      obtain ⟨hhead, a, ha, htail⟩ := Linked.cons_iff.mp h
      by_cases hp : p = win
      · subst hp
        have heq : removeFromList fuel g p =
            some { g with wm := { g.wm with windows := a.next } } := by
          simp [removeFromList, hhead, ha]
        exact ⟨_, heq, rfl, rfl, .refl _, by simpa using htail⟩
      · rw [hhead] at h
        obtain ⟨pre, q, post, hsplit, hseek, hpass, hstop⟩ :=
          h.seek (fun q _ => decide (q ≠ win)) (Nat.lt_of_succ_le hfuel)
        rw [hsplit] at h hnd hwin ⊢
        have hpre : win ∉ pre ++ [q] := by
          intro hm
          obtain ⟨v, hv⟩ := h.live win hwin
          cases pre with
          | nil =>
              obtain ⟨hpq, -⟩ := List.cons.inj hsplit
              exact hp (hpq.trans (by simpa using hm : win = q).symm)
          | cons b pre =>
              obtain ⟨hpb, -⟩ := List.cons.inj hsplit
              rcases List.mem_cons.mp hm with hm | hm
              · exact hp (hpb.trans hm.symm)
              · simpa using hpass win hm v hv
        have hpost : win ∈ post := by simpa [or_assoc, not_or.mp (by simpa using hpre)] using hwin
        obtain ⟨y, post, rfl⟩ := List.exists_cons_of_ne_nil (List.ne_nil_of_mem hpost)
        obtain ⟨v, hv⟩ := h.live y (by simp)
        obtain rfl : y = win := by simpa using hstop y (by simp) v hv
        obtain ⟨b, hb⟩ := h.live q (by simp)
        have hnext : b.next = some y := h.next_eq hb
        simp only [ne_eq, decide_not] at hseek
        have heq : removeFromList fuel g y = some
            { g with heap := Function.update g.heap q (some { b with next := v.next }) } := by
          simp [removeFromList, hhead, hp, hseek, hb, hnext, hv, modify_eq hb]
        refine ⟨_, heq, rfl, rfl, .update hb rfl rfl, ?_⟩
        · have herase : (pre ++ q :: y :: post).erase y = pre ++ q :: post := by
            have hsplit' : pre ++ q :: y :: post = (pre ++ [q]) ++ y :: post := by simp
            rw [hsplit', List.erase_append_right _ hpre]
            simp
          rw [herase, hhead]
          exact h.removeAfter hnd (by simp [link, hv])

/-- A window above all others is inserted at the end of the list. -/
theorem insertSorted_spec (h : Linked g.heap Window.next g.wm.windows ws) (hnd : ws.Nodup)
    (hwin : win ∉ ws) (hw : g.heap win = some w) (htop : ∀ p ∈ ws, zOf g.heap p < w.zOrder)
    (hfuel : ws.length ≤ fuel) :
    ∃ g', insertSorted fuel g win = some g' ∧ Relinked g g' (ws ++ [win]) := by
  cases ws with
  | nil =>
      have hhead : g.wm.windows = none := h.chain
      have heq : insertSorted fuel g win = some
          { g with
            heap := Function.update g.heap win (some { w with next := none })
            wm := { g.wm with windows := some win } } := by
        simp [insertSorted, hw, hhead, modify_eq hw]
      exact ⟨_, heq, rfl, rfl, .update hw rfl rfl, h.insertHead hwin hhead.symm⟩
  | cons p ws =>
      obtain ⟨hhead, a, ha, -⟩ := Linked.cons_iff.mp h
      have hbelow : ∀ q v, q ∈ p :: ws → g.heap q = some v → v.zOrder < w.zOrder := by
        intro q v hq hv
        rw [← zOf_eq hv]
        exact htop q hq
      rw [hhead] at h
      obtain ⟨pre, q, post, hsplit, hseek, -, hstop⟩ :=
        h.seek (fun _ v => decide (v.zOrder ≤ w.zOrder)) (Nat.lt_of_succ_le hfuel)
      -- the search goes up to the last window, since every test succeeds
      have hpost : post = [] := by
        cases post with
        | nil => rfl
        | cons y post =>
            have hy : y ∈ p :: ws := by simp [hsplit]
            obtain ⟨v, hv⟩ := h.live y hy
            have hlt := hbelow y v hy hv
            have hstop' : ¬ v.zOrder ≤ w.zOrder := by simpa using hstop y (by simp) v hv
            omega
      subst hpost
      have hq : q ∈ p :: ws := by simp [hsplit]
      have hne : win ≠ q := fun he => hwin (he ▸ hq)
      obtain ⟨b, hb⟩ := h.live q hq
      have hnlt : ¬ w.zOrder < a.zOrder := by
        have := hbelow p a (by simp) ha
        omega
      have hb' : Function.update g.heap win (some { w with next := b.next }) q = some b := by
        rw [Function.update_of_ne hne.symm, hb]
      have hsame : SameStack g.heap (Function.update g.heap win (some { w with next := b.next })) :=
        .update hw rfl rfl
      have heq : insertSorted fuel g win = some
          { g with
            heap := Function.update (Function.update g.heap win (some { w with next := b.next })) q
              (some { b with next := some win }) } := by
        simp [insertSorted, hw, hhead, ha, hnlt, hseek, hb, State.modify, hne.symm]
      refine ⟨_, heq, rfl, rfl, hsame.trans (.update hb' rfl rfl), ?_⟩
      · rw [hhead]
        rw [hsplit] at h hnd hwin ⊢
        have hins := h.insertAfter hnd hwin (a := { w with next := b.next })
          (b := { b with next := some win }) (by simp [link, hb]) rfl
        simpa using hins

private theorem foldl_max_ge (xs : List (Ptr × Window)) (m : Nat) :
    m ≤ xs.foldl (fun maxZ x => if x.2.zOrder > maxZ then x.2.zOrder else maxZ) m ∧
    ∀ x ∈ xs, x.2.zOrder ≤
      xs.foldl (fun maxZ x => if x.2.zOrder > maxZ then x.2.zOrder else maxZ) m := by
  induction xs generalizing m with
  | nil => simp
  | cons x xs ih =>
      simp only [List.foldl_cons, List.forall_mem_cons]
      have hstep := ih (if x.2.zOrder > m then x.2.zOrder else m)
      refine ⟨le_trans ?_ hstep.1, le_trans ?_ hstep.1, hstep.2⟩ <;> split <;> omega

private theorem foldl_max_le (xs : List (Ptr × Window)) (m bound : Nat) (hm : m ≤ bound)
    (hxs : ∀ x ∈ xs, x.2.zOrder ≤ bound) :
    xs.foldl (fun maxZ x => if x.2.zOrder > maxZ then x.2.zOrder else maxZ) m ≤ bound := by
  induction xs generalizing m with
  | nil => exact hm
  | cons x xs ih =>
      apply ih
      · have hx := hxs x (by simp)
        simp only
        split <;> omega
      · intro y hy
        exact hxs y (by simp [hy])

/-- The next z-order is above every window of the list. -/
theorem getNextZOrder_spec {bound : Nat} (h : Linked g.heap Window.next g.wm.windows ws)
    (hbound : ∀ p ∈ ws, zOf g.heap p ≤ bound) (hlt : bound + 1 < 2 ^ 32)
    (hfuel : ws.length ≤ fuel) :
    ∃ z, getNextZOrder fuel g = some z ∧ z ≤ bound + 1 ∧ ∀ p ∈ ws, zOf g.heap p < z := by
  obtain ⟨xs, hwalk, hmap, hheap⟩ := h.walk hfuel
  have hz : ∀ x ∈ xs, x.1 ∈ ws ∧ x.2.zOrder = zOf g.heap x.1 := by
    intro x hx
    exact ⟨hmap ▸ List.mem_map_of_mem hx, (zOf_eq (hheap x hx)).symm⟩
  have hle := foldl_max_le xs 0 bound (Nat.zero_le _) (by
    intro x hx
    rw [(hz x hx).2]
    exact hbound _ (hz x hx).1)
  refine ⟨_, by simp only [getNextZOrder, hwalk]; rfl, ?_, ?_⟩
  · rw [u32_of_lt (by omega)]
    omega
  · intro p hp
    rw [u32_of_lt (by omega)]
    rw [← hmap] at hp
    obtain ⟨x, hx, rfl⟩ := List.mem_map.mp hp
    have hge := (foldl_max_ge xs 0).2 x hx
    rw [(hz x hx).2] at hge
    omega

end Lists

/-! ## The list and the stack it stands for -/

/-- The window list is `ws`, from the lowest z-order to the highest, and the window `focus` is
the one that is marked as focused. -/
structure Listed (g : State) (ws : List Ptr) (focus : Option Ptr) (bound : Nat) : Prop where
  linked : Linked g.heap Window.next g.wm.windows ws
  nodup : ws.Nodup
  live : ∀ p, p ∈ ws ↔ Live g.heap p
  sorted : ws.Pairwise fun p q => zOf g.heap p < zOf g.heap q
  count : g.wm.count = ws.length
  limit : ws.length ≤ 16
  focused : g.wm.focused = focus
  flag : ∀ p, flagOf g.heap p = true ↔ focus = some p
  bound : ∀ p ∈ ws, zOf g.heap p ≤ bound

/-- The state represents a stack of windows, with z-orders up to `bound`. -/
def Stacked (g : State) (s : Stacking Ptr) (bound : Nat) : Prop := Listed g s.order s.focus bound

section Operations

variable {g g' : State} {ws : List Ptr} {focus : Option Ptr} {bound fuel : Nat}

theorem Listed.focus_mem (h : Listed g ws focus bound) {p : Ptr} (hp : focus = some p) :
    p ∈ ws := by
  rw [h.live]
  have hflag := (h.flag p).mpr hp
  unfold flagOf at hflag
  cases hw : g.heap p with
  | none => simp [hw] at hflag
  | some w => simp [Live, hw]

/-- A change that keeps the pointers, the z-orders and the focus. -/
theorem Listed.congr (h : Listed g ws focus bound) (hsame : SameStack g.heap g'.heap)
    (hlinked : Linked g'.heap Window.next g'.wm.windows ws)
    (hcount : g'.wm.count = g.wm.count) (hfocused : g'.wm.focused = g.wm.focused) :
    Listed g' ws focus bound where
  linked := hlinked
  nodup := h.nodup
  live := fun p => (h.live p).trans (hsame.live p).symm
  sorted := by rw [hsame.z]; exact h.sorted
  count := hcount.trans h.count
  limit := h.limit
  focused := hfocused.trans h.focused
  flag := by rw [hsame.flag]; exact h.flag
  bound := by rw [hsame.z]; exact h.bound

theorem Listed.mono (h : Listed g ws focus bound) {bound' : Nat} (hle : bound ≤ bound') :
    Listed g ws focus bound' :=
  { h with bound := fun p hp => (h.bound p hp).trans hle }

/-- Writing fields of a window that the stack does not depend on. -/
theorem Listed.update (h : Listed g ws focus bound) (hw : g.heap win = some w) (w' : Window)
    (hz : w'.zOrder = w.zOrder) (hf : w'.focused = w.focused) (hnext : w'.next = w.next)
    (hheap : g'.heap = Function.update g.heap win (some w'))
    (hwindows : g'.wm.windows = g.wm.windows) (hcount : g'.wm.count = g.wm.count)
    (hfocused : g'.wm.focused = g.wm.focused) : Listed g' ws focus bound := by
  apply h.congr _ _ hcount hfocused
  · rw [hheap]
    exact .update hw hz hf
  · rw [hheap, hwindows]
    exact h.linked.update fun _ => by simp [link, hw, hnext]

theorem raiseWindow_spec (hlinked : Linked g.heap Window.next g.wm.windows ws) (hnd : ws.Nodup)
    (hlive : ∀ p, p ∈ ws ↔ Live g.heap p) (hbound : ∀ p ∈ ws, zOf g.heap p ≤ bound)
    (hlt : bound + 1 < 2 ^ 32) (hwin : win ∈ ws) (hfuel : ws.length ≤ fuel) :
    ∃ g' z, raiseWindow fuel g win = some g' ∧ z ≤ bound + 1 ∧ (∀ p ∈ ws, zOf g.heap p < z) ∧
      Linked g'.heap Window.next g'.wm.windows (ws.erase win ++ [win]) ∧
      zOf g'.heap = Function.update (zOf g.heap) win z ∧ flagOf g'.heap = flagOf g.heap ∧
      (∀ p, Live g'.heap p ↔ Live g.heap p) ∧ g'.wm.focused = g.wm.focused ∧
      g'.wm.count = g.wm.count := by
  obtain ⟨z, hz, hzle, hztop⟩ := getNextZOrder_spec hlinked hbound hlt hfuel
  obtain ⟨g₁, hg₁, hrel₁⟩ := removeFromList_spec hlinked hnd hwin hfuel
  obtain ⟨w₁, hw₁⟩ := ((hrel₁.same.live win).mpr ((hlive win).mp hwin)).exists
  have hnot : win ∉ ws.erase win := hnd.not_mem_erase
  let g₂ : State :=
    { g₁ with heap := Function.update g₁.heap win (some { w₁ with zOrder := z }) }
  have hg₂ : g₁.modify win (fun w => { w with zOrder := z }) = some g₂ := modify_eq hw₁ _
  have hlinked₂ : Linked g₂.heap Window.next g₂.wm.windows (ws.erase win) :=
    hrel₁.linked.update fun hm => absurd hm hnot
  have hz₂ : zOf g₂.heap = Function.update (zOf g.heap) win z := by
    rw [← hrel₁.same.z]
    exact zOf_update
  have hflag₂ : flagOf g₂.heap = flagOf g.heap := by
    have hself : flagOf g₂.heap = Function.update (flagOf g₁.heap) win w₁.focused := flagOf_update
    rw [hself, ← flagOf_eq hw₁, Function.update_eq_self, hrel₁.same.flag]
  have hlive₂ : ∀ p, Live g₂.heap p ↔ Live g.heap p := by
    intro p
    rw [← hrel₁.same.live p]
    refine live_update.trans ⟨fun h => ?_, .inr⟩
    rcases h with rfl | h
    · simp [Live, hw₁]
    · exact h
  have htop₂ : ∀ p ∈ ws.erase win, zOf g₂.heap p < z := by
    intro p hp
    have hne : p ≠ win := fun he => hnot (he ▸ hp)
    rw [hz₂, Function.update_of_ne hne]
    exact hztop p (List.mem_of_mem_erase hp)
  have hw₂ : g₂.heap win = some { w₁ with zOrder := z } := by simp [g₂]
  obtain ⟨g₃, hg₃, hrel₃⟩ := insertSorted_spec hlinked₂ (hnd.erase win) hnot hw₂ htop₂
    ((List.length_erase_le).trans hfuel)
  refine ⟨g₃, z, ?_, hzle, hztop, hrel₃.linked, hrel₃.same.z.trans hz₂,
    hrel₃.same.flag.trans hflag₂, fun p => (hrel₃.same.live p).trans (hlive₂ p),
    hrel₃.focused.trans hrel₁.focused, hrel₃.count.trans hrel₁.count⟩
  simp only [raiseWindow, hz, hg₁, hg₂, hg₃, Option.bind_eq_bind, Option.bind_some]

private theorem pairwise_raise {ws : List Ptr} {z z' : Ptr → Nat} {win : Ptr} {top : Nat}
    (h : ws.Pairwise fun p q => z p < z q) (hnd : ws.Nodup)
    (hz : z' = Function.update z win top) (htop : ∀ p ∈ ws, z p < top) :
    (ws.erase win ++ [win]).Pairwise fun p q => z' p < z' q := by
  have hne : ∀ p ∈ ws.erase win, p ≠ win := fun p hp he => hnd.not_mem_erase (he ▸ hp)
  rw [List.pairwise_append]
  refine ⟨?_, List.pairwise_singleton _ _, ?_⟩
  · apply (h.sublist List.erase_sublist).imp_of_mem
    intro p q hp hq hpq
    rwa [hz, Function.update_of_ne (hne p hp), Function.update_of_ne (hne q hq)]
  · intro p hp q hq
    rw [List.mem_singleton.mp hq, hz, Function.update_of_ne (hne p hp), Function.update_self]
    exact htop p (List.mem_of_mem_erase hp)

/-- After `dropFocus` no window is marked as focused. -/
theorem Listed.dropFocus (h : Listed g ws focus bound) :
    ∃ g', Gui.dropFocus g = some g' ∧ Linked g'.heap Window.next g'.wm.windows ws ∧
      zOf g'.heap = zOf g.heap ∧ (∀ p, Live g'.heap p ↔ Live g.heap p) ∧
      (∀ p, flagOf g'.heap p = false) ∧ g'.wm = g.wm := by
  unfold Gui.dropFocus
  rw [h.focused]
  cases focus with
  | none =>
      refine ⟨g, rfl, h.linked, rfl, fun _ => Iff.rfl, ?_, rfl⟩
      intro p
      simpa using (h.flag p).not.mpr (by simp)
  | some old =>
      obtain ⟨w, hw⟩ := ((h.live old).mp (h.focus_mem rfl)).exists
      refine ⟨_, modify_eq hw _, ?_, ?_, ?_, ?_, rfl⟩
      · exact h.linked.update fun _ => by simp [link, hw]
      · simp only [zOf_update, ← zOf_eq hw, Function.update_eq_self]
      · intro p
        refine live_update.trans ⟨fun hp => ?_, .inr⟩
        rcases hp with rfl | hp
        · simp [Live, hw]
        · exact hp
      · intro p
        simp only [flagOf_update]
        by_cases hp : p = old
        · subst hp; simp
        · rw [Function.update_of_ne hp]
          simpa using (h.flag p).not.mpr (by simpa using Ne.symm hp)

/-- Focusing a window that does not have the focus yet. -/
theorem Listed.focusWindow (h : Listed g ws focus bound) (hlt : bound + 1 < 2 ^ 32)
    (hwin : win ∈ ws) (hfocus : focus ≠ some win) (hfuel : 16 ≤ fuel) :
    ∃ g', wmFocusWindow fuel g (some win) = some g' ∧
      Listed g' (ws.erase win ++ [win]) (some win) (bound + 1) := by
  obtain ⟨g₁, hg₁, hlinked₁, hz₁, hlive₁, hflag₁, hwm₁⟩ := h.dropFocus
  obtain ⟨w₁, hw₁⟩ := ((hlive₁ win).mpr ((h.live win).mp hwin)).exists
  let g₂ : State :=
    { g₁ with
      heap := Function.update g₁.heap win (some { w₁ with focused := true })
      wm := { g₁.wm with focused := some win } }
  have hlinked₂ : Linked g₂.heap Window.next g₂.wm.windows ws :=
    hlinked₁.update fun _ => by simp [link, hw₁]
  have hz₂ : zOf g₂.heap = zOf g.heap := by
    rw [← hz₁]
    exact zOf_update.trans (by simp only [← zOf_eq hw₁, Function.update_eq_self])
  have hflag₂ : ∀ p, flagOf g₂.heap p = true ↔ p = win := by
    intro p
    rw [show flagOf g₂.heap = _ from flagOf_update]
    by_cases hp : p = win
    · subst hp; simp
    · simp [hflag₁ p, hp]
  have hlive₂ : ∀ p, p ∈ ws ↔ Live g₂.heap p := by
    intro p
    rw [h.live p, ← hlive₁ p]
    refine ⟨fun hp => live_update.mpr (.inr hp), fun hp => ?_⟩
    rcases live_update.mp hp with rfl | hp
    · simp [Live, hw₁]
    · exact hp
  obtain ⟨g₃, z, hg₃, hzle, hztop, hlinked₃, hz₃, hflag₃, hlive₃, hfocused₃, hcount₃⟩ :=
    raiseWindow_spec hlinked₂ h.nodup hlive₂ (by rw [hz₂]; exact h.bound) hlt hwin
      (h.limit.trans hfuel)
  obtain ⟨w₃, hw₃⟩ := ((hlive₃ win).mpr ((hlive₂ win).mp hwin)).exists
  have hperm : (ws.erase win ++ [win]).Perm ws :=
    List.perm_append_comm.trans (List.perm_cons_erase hwin).symm
  have hlisted₃ : Listed g₃ (ws.erase win ++ [win]) (some win) (bound + 1) :=
    { linked := hlinked₃
      nodup := hperm.nodup_iff.mpr h.nodup
      live := fun p => (hperm.mem_iff.trans (hlive₂ p)).trans (hlive₃ p).symm
      sorted := pairwise_raise h.sorted h.nodup (hz₂ ▸ hz₃) (by rw [← hz₂]; exact hztop)
      count := by rw [hcount₃, hperm.length_eq, ← h.count, ← hwm₁]
      limit := by rw [hperm.length_eq]; exact h.limit
      focused := hfocused₃
      flag := by
        intro p
        rw [hflag₃, hflag₂]
        exact ⟨fun hp => hp ▸ rfl, fun hp => (Option.some.inj hp).symm⟩
      bound := by
        intro p hp
        rw [hz₃, hz₂]
        by_cases hpw : p = win
        · subst hpw; simpa using hzle
        · rw [Function.update_of_ne hpw]
          exact (h.bound p (hperm.mem_iff.mp hp)).trans (Nat.le_succ _) }
  let w₄ : Window := { w₃ with dirty := true }
  let g₄ : State :=
    { g₃ with
      heap := Function.update g₃.heap win (some w₄)
      wm := { g₃.wm with needsComposite := true } }
  have hlisted₄ : Listed g₄ (ws.erase win ++ [win]) (some win) (bound + 1) :=
    hlisted₃.update hw₃ w₄ rfl rfl rfl rfl rfl rfl rfl
  refine ⟨g₄, ?_, hlisted₄⟩
  have hne : ¬ g.wm.focused = some win := by rw [h.focused]; exact hfocus
  have hg₂ : g₁.modify win (fun w => { w with focused := true }) =
      some { g₁ with heap := Function.update g₁.heap win (some { w₁ with focused := true }) } :=
    modify_eq hw₁ _
  simp only [wmFocusWindow, if_neg hne, hg₁, hg₂, Option.bind_eq_bind, Option.bind_some]
  rw [show raiseWindow fuel _ win = _ from hg₃, Option.bind_some, modify_eq hw₃]
  rfl

variable {s : Stacking Ptr}

/-- Focusing a window raises it: the early return is right because the window with the focus is
the topmost one. -/
theorem Stacked.focusWindow (h : Stacked g s bound) (hlt : bound + 1 < 2 ^ 32)
    (hwin : win ∈ s.order) (hfuel : 16 ≤ fuel) :
    ∃ g', wmFocusWindow fuel g (some win) = some g' ∧ Stacked g' (s.raise win) (bound + 1) := by
  by_cases hfocus : s.focus = some win
  · obtain ⟨w, hw⟩ := ((h.live win).mp hwin).exists
    have hflag : w.focused = true := by
      rw [← flagOf_eq hw]
      exact (h.flag win).mpr hfocus
    have heq : wmFocusWindow fuel g (some win) =
        some { g with heap := Function.update g.heap win (some { w with focused := true }) } := by
      simp only [wmFocusWindow, h.focused, hfocus, if_true]
      exact modify_eq hw _
    obtain ⟨horder, hfocus'⟩ := s.raise_focus hfocus
    refine ⟨_, heq, ?_⟩
    unfold Stacked
    rw [horder, hfocus']
    refine Listed.mono ?_ (Nat.le_succ _)
    exact Listed.update h hw { w with focused := true } rfl hflag.symm rfl rfl rfl rfl rfl
  · exact Listed.focusWindow h hlt hwin hfocus hfuel

/-- A window that is created is the topmost one. -/
theorem Stacked.createWindow (h : Stacked g s bound) (hlt : bound + 2 < 2 ^ 32)
    (hfresh : g.heap win = none) (hfuel : 16 ≤ fuel) (x y : Int) (contentW contentH : Nat)
    (title : CStr) (buffer : Nat → Nat) (hcount : g.wm.count < 16) :
    ∃ g', wmCreateWindow fuel g x y contentW contentH title (some win) (some buffer) =
        some (g', some win) ∧ Stacked g' (s.raise win) (bound + 2) := by
  have hnot : win ∉ s.order := by
    rw [h.live]
    simp [Live, hfresh]
  have hne : ∀ p ∈ s.order, p ≠ win := fun p hp he => hnot (he ▸ hp)
  let w := newWindow x y contentW contentH title buffer
  let g₁ : State := { g with heap := Function.update g.heap win (some w) }
  have hz₁ : ∀ p ∈ s.order, zOf g₁.heap p = zOf g.heap p := by
    intro p hp
    rw [show zOf g₁.heap = _ from zOf_update, Function.update_of_ne (hne p hp)]
  have hlinked₁ : Linked g₁.heap Window.next g₁.wm.windows s.order :=
    h.linked.update fun hm => absurd hm hnot
  have hlen : s.order.length ≤ fuel := h.limit.trans hfuel
  obtain ⟨z, hz, hzle, hztop⟩ := getNextZOrder_spec hlinked₁
    (fun p hp => hz₁ p hp ▸ h.bound p hp) (Nat.lt_of_succ_lt hlt) hlen
  let g₂ : State := { g₁ with heap := Function.update g₁.heap win (some { w with zOrder := z }) }
  have hw₁ : g₁.heap win = some w := by simp [g₁]
  have hw₂ : g₂.heap win = some { w with zOrder := z } := by simp [g₂]
  have hz₂ : zOf g₂.heap = Function.update (zOf g.heap) win z := by
    rw [show zOf g₂.heap = _ from zOf_update, show zOf g₁.heap = _ from zOf_update]
    simp
  have hflag₂ : flagOf g₂.heap = flagOf g.heap := by
    rw [show flagOf g₂.heap = _ from flagOf_update, show flagOf g₁.heap = _ from flagOf_update]
    have hold : flagOf g.heap win = false := by simp [flagOf, hfresh]
    simp [w, newWindow, computeWindowSize, ← hold]
  have hlive₂ : ∀ p, Live g₂.heap p ↔ p = win ∨ Live g.heap p := by
    intro p
    rw [show Live g₂.heap p ↔ _ from live_update, show Live g₁.heap p ↔ _ from live_update]
    tauto
  obtain ⟨g₃, hg₃, hrel⟩ := insertSorted_spec
    (hlinked₁.update fun hm => absurd hm hnot : Linked g₂.heap _ g₂.wm.windows _) h.nodup
    hnot hw₂ (fun p hp => by
      rw [hz₂, Function.update_of_ne (hne p hp), ← hz₁ p hp]
      exact hztop p hp) hlen
  let g₄ : State := { g₃ with wm := { g₃.wm with count := g₃.wm.count + 1 } }
  have hlisted : Listed g₄ (s.order ++ [win]) s.focus (bound + 1) :=
    { linked := hrel.linked
      nodup := by
        rw [← List.erase_of_not_mem hnot]
        exact (s.raise win).nodup
      live := by
        intro p
        rw [List.mem_append, List.mem_singleton, h.live p, hrel.same.live p, hlive₂ p]
        exact or_comm
      sorted := by
        rw [hrel.same.z, ← List.erase_of_not_mem hnot]
        exact pairwise_raise (h.sorted) h.nodup hz₂
          fun p hp => hz₁ p hp ▸ hztop p hp
      count := by
        have hcount₃ : g₃.wm.count = s.order.length := by
          rw [hrel.count]
          exact h.count
        simp [g₄, hcount₃]
      limit := by
        have hlt16 : (s.order.length : Int) < 16 := h.count ▸ hcount
        simp only [List.length_append, List.length_singleton]
        omega
      focused := by
        rw [show g₄.wm.focused = _ from hrel.focused]
        exact h.focused
      flag := by
        rw [hrel.same.flag, hflag₂]
        exact h.flag
      bound := by
        intro p hp
        rw [hrel.same.z, hz₂]
        by_cases hpw : p = win
        · subst hpw; simpa using hzle
        · rw [Function.update_of_ne hpw]
          have hmem : p ∈ s.order := by simpa [hpw] using hp
          exact (h.bound p hmem).trans (Nat.le_succ _) }
  have hfocus : s.focus ≠ some win := fun hf => hnot (s.focus_mem hf)
  obtain ⟨g₅, hg₅, hlisted₅⟩ := hlisted.focusWindow hlt (by simp) hfocus hfuel
  have horder : (s.order ++ [win]).erase win = s.order.erase win := by
    rw [List.erase_append_right _ hnot, List.erase_of_not_mem hnot]
    simp
  rw [horder] at hlisted₅
  refine ⟨{ g₅ with wm := { g₅.wm with needsComposite := true } }, ?_,
    hlisted₅.congr (.refl _) hlisted₅.linked rfl rfl⟩
  have hlimit : ¬ g.wm.count ≥ wmMaxWindows := by
    unfold wmMaxWindows
    omega
  unfold wmCreateWindow
  rw [if_neg hlimit]
  simp only [Option.bind_eq_bind]
  rw [show getNextZOrder fuel _ = _ from hz, Option.bind_some,
    show State.modify _ win _ = _ from modify_eq hw₁ _, Option.bind_some,
    show insertSorted fuel _ win = _ from hg₃, Option.bind_some,
    show wmFocusWindow fuel _ _ = _ from hg₅]
  rfl

/-- Destroying a window takes it off the stack. -/
theorem Stacked.destroyWindow (h : Stacked g s bound) (hwin : win ∈ s.order) (hfuel : 16 ≤ fuel) :
    ∃ g', wmDestroyWindow fuel g (some win) = some g' ∧ Stacked g' (s.close win) bound := by
  have hnot : win ∉ s.order.erase win := h.nodup.not_mem_erase
  obtain ⟨g₁, hg₁, hrel⟩ := removeFromList_spec h.linked h.nodup hwin
    (h.limit.trans hfuel)
  obtain ⟨w₁, hw₁⟩ := ((hrel.same.live win).mpr ((h.live win).mp hwin)).exists
  let g₂ : State :=
    { g₁ with
      heap := Function.update g₁.heap win none
      wm :=
        { g₁.wm with
          focused := if g₁.wm.focused = some win then none else g₁.wm.focused
          count := g₁.wm.count - 1
          needsComposite := true } }
  have heq : wmDestroyWindow fuel g (some win) = some g₂ := by
    simp [wmDestroyWindow, hg₁, State.modify, hw₁, g₂]
  have hkeep : ∀ p, p ≠ win → zOf g₂.heap p = zOf g.heap p ∧ flagOf g₂.heap p = flagOf g.heap p ∧
      (Live g₂.heap p ↔ Live g.heap p) := by
    intro p hp
    have hheap : g₂.heap p = g₁.heap p := Function.update_of_ne hp _ _
    rw [← hrel.same.z, ← hrel.same.flag, ← hrel.same.live p]
    simp [zOf, flagOf, Live, hheap]
  have hgone : g₂.heap win = none := by simp [g₂]
  have hne : ∀ p ∈ s.order.erase win, p ≠ win := fun p hp he => hnot (he ▸ hp)
  refine ⟨g₂, heq, ?_⟩
  exact
    { linked := hrel.linked.free hnot
      nodup := h.nodup.erase win
      live := by
        intro p
        by_cases hp : p = win
        · subst hp
          simp [Live, hgone, Stacking.close, hnot]
        · rw [(hkeep p hp).2.2, ← h.live p]
          exact List.mem_erase_of_ne hp
      sorted := by
        apply (h.sorted.sublist List.erase_sublist).imp_of_mem
        intro p q hp hq hpq
        rwa [(hkeep p (hne p hp)).1, (hkeep q (hne q hq)).1]
      count := by
        have hcount : g₁.wm.count = s.order.length := by
          rw [hrel.count]
          exact h.count
        have hpos := List.length_pos_of_mem hwin
        have hlen : (s.order.erase win).length = s.order.length - 1 := List.length_erase_of_mem hwin
        simp only [g₂, hcount, Stacking.close, hlen]
        omega
      limit := List.length_erase_le.trans h.limit
      focused := by
        have hfocused : g₁.wm.focused = s.focus := by
          rw [hrel.focused]
          exact h.focused
        simp [g₂, hfocused, Stacking.close]
      flag := by
        intro p
        by_cases hp : p = win
        · subst hp
          simp only [flagOf, hgone, Stacking.close]
          split <;> simp_all
        · rw [(hkeep p hp).2.1, h.flag p]
          simp only [Stacking.close]
          split
          · next hf => simp [hf, Ne.symm hp]
          · rfl
      bound := by
        intro p hp
        rw [(hkeep p (hne p hp)).1]
        exact h.bound p (List.mem_of_mem_erase hp) }

end Operations

end SRos.Gui
