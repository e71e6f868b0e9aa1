import SRos.Gui.Creation

/-!
# The window manager and the heap

A run in which the window manager allocates its windows and their buffers from the kernel heap,
next to other clients. In every state that is reached the windows and their buffers are different
live blocks. So a call of `wm_create_window` that fails leaves everything as it was.
-/

namespace SRos.Gui

open Heap (Mem HeapSys HeapAct Block Normal kfree)

/-! ## Calls that create no window -/

/-- No window has been added. -/
def Fewer (g g' : State) : Prop := ∀ p, Live g'.heap p → Live g.heap p

theorem fewer_of_eq {g g' : State} (h : g'.heap = g.heap) : Fewer g g' := by
  intro p hp
  rwa [h] at hp

theorem fewer_update {g : State} {win : Ptr} {v : Option Window}
    (h : v.isSome = true → Live g.heap win) :
    Fewer g { g with heap := Function.update g.heap win v } := by
  intro p hp
  by_cases heq : p = win
  · subst heq
    apply h
    simpa [Live] using hp
  · simpa [Live, heq] using hp

theorem fewer_frame : CallFrame Fewer where
  refl _ := fewer_of_eq rfl
  trans h h' := fun p hp => h p (h' p hp)
  wm _ _ := fewer_of_eq rfl
  modify h := by
    obtain ⟨w, hw, hg'⟩ := Option.bind_eq_some_iff.mp h
    obtain rfl := Option.some.inj hg'
    refine fewer_update fun _ => ?_
    rw [Live, hw]
    rfl
  remove _ _ := fewer_update fun h => by cases h
  painted h := fun p hp => (h.sameList.sameStack.live p).mp hp
  composite h := fun p hp => ((sameList_wmComposite h).sameStack.live p).mp hp
  buttonsLast _ _ := fewer_of_eq rfl

/-- The only window that can be new is the one that is returned. -/
theorem live_createWindow {fuel : Nat} {g g' : State} {x y : Int} {contentW contentH : Nat}
    {title : CStr} {win : Ptr} {old : Nat → Nat} {p : Option Ptr}
    (h : wmCreateWindow fuel g x y contentW contentH title (some win) (some old) = some (g', p)) :
    ∀ q, Live g'.heap q → q = win ∨ Live g.heap q := by
  unfold wmCreateWindow at h
  split at h
  · obtain ⟨rfl, -⟩ := Prod.mk.inj (Option.some.inj h)
    exact fun q hq => .inr hq
  · obtain ⟨z, -, h⟩ := Option.bind_eq_some_iff.mp h
    obtain ⟨g₁, hg₁, h⟩ := Option.bind_eq_some_iff.mp h
    obtain ⟨g₂, hg₂, h⟩ := Option.bind_eq_some_iff.mp h
    obtain ⟨g₃, hg₃, h⟩ := Option.bind_eq_some_iff.mp h
    obtain ⟨rfl, -⟩ := Prod.mk.inj (Option.some.inj h)
    intro q hq
    have hfewer := fewer_frame.trans (fewer_frame.modify hg₁) (fewer_frame.insertSorted hg₂)
    have hlive := hfewer q (fewer_frame.focusWindow hg₃ q hq)
    by_cases heq : q = win
    · exact .inl heq
    · right
      simpa [Live, heq] using hlive

/-! ## Runs -/

/-- The heap, the window manager, and the buffer of each window. -/
structure Desk where
  heap : HeapSys
  gui : State
  buffers : Ptr → Ptr

/-- What another client of the heap does, a call of `wm_create_window`, and any other call of the
interface with the windows that are destroyed in it. -/
inductive DeskAct where
  | client (act : HeapAct)
  | create (x y : Int) (contentW contentH : Nat) (title : CStr)
  | call (op : Op) (destroyed : List Ptr)

def Op.creates : Op → Bool
  | .create .. => true
  | _ => false

namespace Desk

def boot (m : Mem) (g : State) : Desk := ⟨.boot m, wmInit g, fun _ => 0⟩

/-- The pointer is that of a window or of its buffer. -/
def Owns (d : Desk) (p : Ptr) : Prop := ∃ win, Live d.gui.heap win ∧ (p = win ∨ p = d.buffers win)

/-- The two calls of `kfree` in `wm_destroy_window`. -/
def freeWindow (buffers : Ptr → Ptr) (s : HeapSys) (win : Ptr) : HeapSys :=
  ⟨kfree (kfree s.mem (buffers win)) win, (s.live.erase (buffers win)).erase win⟩

/-- The other clients free only their own blocks, all writes go inside blocks, also those that
fill a new buffer, and the windows that are listed as destroyed are those that a call destroys. -/
def ok (fuel : Nat) (d : Desk) : DeskAct → Prop
  | .client act => d.heap.ok act ∧ ∀ p, act = .kfree p → ¬ d.Owns p
  | .create x y contentW contentH title =>
      ∀ m win b, allocateWindow d.heap.mem x y contentW contentH title =
        some (m, some win, some b) →
      ∀ a, b ≤ a → a < b + 4 * u32 (contentW * contentH) → Heap.Payload m a
  | .call op destroyed =>
      op.creates = false ∧ destroyed.Nodup ∧ ∀ g', Gui.call fuel d.gui op = some g' →
        ∀ p, p ∈ destroyed ↔ Live d.gui.heap p ∧ ¬ Live g'.heap p

def step (fuel : Nat) (d : Desk) : DeskAct → Option Desk
  | .client act => (d.heap.step act).map fun heap => { d with heap }
  | .create x y contentW contentH title => do
      let (mem, gui, win) ← createWindow fuel d.heap.mem d.gui x y contentW contentH title
      match win with
      | none => return { d with heap := { d.heap with mem }, gui }
      | some win => do
          let (_, _, buffer) ← allocateWindow d.heap.mem x y contentW contentH title
          let b ← buffer
          return ⟨⟨mem, b :: win :: d.heap.live⟩, gui, Function.update d.buffers win b⟩
  | .call op destroyed => do
      let gui ← Gui.call fuel d.gui op
      return { d with heap := destroyed.foldl (freeWindow d.buffers) d.heap, gui }

/-- The windows and their buffers are different live blocks of the heap. -/
structure Inv (d : Desk) : Prop where
  heap : ∃ bs, d.heap.Inv bs
  window : ∀ win, Live d.gui.heap win → win ∈ d.heap.live
  buffer : ∀ win, Live d.gui.heap win → d.buffers win ∈ d.heap.live
  apart : ∀ win win', Live d.gui.heap win → Live d.gui.heap win' → d.buffers win ≠ win'
  inj : ∀ win win', Live d.gui.heap win → Live d.gui.heap win' →
    d.buffers win = d.buffers win' → win = win'

variable {fuel : Nat} {d d' : Desk}

theorem boot_inv (m : Mem) {g : State} (hheap : ∀ p, g.heap p = none) : (boot m g).Inv := by
  have hnone : ∀ p, ¬ Live (boot m g).gui.heap p := by
    intro p hp
    have hlive : (g.heap p).isSome = true := hp
    rw [hheap] at hlive
    cases hlive
  exact
    { heap := ⟨_, HeapSys.boot_inv m⟩
      window := fun p hp => absurd hp (hnone p)
      buffer := fun p hp => absurd hp (hnone p)
      apart := fun p _ hp => absurd hp (hnone p)
      inj := fun p _ hp => absurd hp (hnone p) }

/-- A step that keeps the windows and their blocks. -/
theorem Inv.keep (h : d.Inv) (hheap : ∃ bs, d'.heap.Inv bs) (hbuffers : d'.buffers = d.buffers)
    (hfewer : Fewer d.gui d'.gui) (hlive : ∀ win, Live d'.gui.heap win →
      win ∈ d'.heap.live ∧ d.buffers win ∈ d'.heap.live) : d'.Inv where
  heap := hheap
  window win hwin := (hlive win hwin).1
  buffer win hwin := by
    rw [hbuffers]
    exact (hlive win hwin).2
  apart win win' hwin hwin' := by
    rw [hbuffers]
    exact h.apart win win' (hfewer win hwin) (hfewer win' hwin')
  inj win win' hwin hwin' heq := by
    rw [hbuffers] at heq
    exact h.inj win win' (hfewer win hwin) (hfewer win' hwin') heq

theorem Inv.client (h : d.Inv) {act : HeapAct} (hok : d.ok fuel (.client act))
    (hs : d.step fuel (.client act) = some d') : d'.Inv := by
  obtain ⟨s', hs', rfl⟩ := Option.map_eq_some_iff.mp hs
  obtain ⟨bs, hinv⟩ := h.heap
  refine h.keep (hinv.step hok.1 hs') rfl (fewer_frame.refl _) ?_
  intro win hwin
  have hwindow := h.window win hwin
  have hbuffer := h.buffer win hwin
  cases act with
  | kmalloc size =>
      obtain ⟨⟨p, m'⟩, -, rfl⟩ := Option.map_eq_some_iff.mp hs'
      dsimp only
      split
      · exact ⟨hwindow, hbuffer⟩
      · exact ⟨List.mem_cons_of_mem _ hwindow, List.mem_cons_of_mem _ hbuffer⟩
  | kfree p =>
      obtain rfl := Option.some.inj hs'
      have howns := hok.2 p rfl
      constructor
      · exact (List.mem_erase_of_ne fun heq => howns ⟨win, hwin, .inl heq.symm⟩).mpr hwindow
      · exact (List.mem_erase_of_ne fun heq => howns ⟨win, hwin, .inr heq.symm⟩).mpr hbuffer
  | write addr byte =>
      obtain rfl := Option.some.inj hs'
      exact ⟨hwindow, hbuffer⟩

/-- Freeing windows and their buffers keeps the blocks of the other windows. -/
theorem inv_freeWindows {buffers : Ptr → Ptr} {W : Ptr → Prop} {ps : List Ptr} {s : HeapSys}
    (hheap : ∃ bs, s.Inv bs) (hlive : ∀ win, W win → win ∈ s.live ∧ buffers win ∈ s.live)
    (hapart : ∀ win win', W win → W win' → buffers win ≠ win')
    (hinj : ∀ win win', W win → W win' → buffers win = buffers win' → win = win')
    (hps : ∀ p ∈ ps, W p) (hnodup : ps.Nodup) :
    (∃ bs, (ps.foldl (freeWindow buffers) s).Inv bs) ∧ ∀ win, W win → win ∉ ps →
      win ∈ (ps.foldl (freeWindow buffers) s).live ∧
        buffers win ∈ (ps.foldl (freeWindow buffers) s).live := by
  induction ps generalizing s W with
  | nil => exact ⟨hheap, fun win hwin _ => hlive win hwin⟩
  | cons p ps ih =>
      obtain ⟨hp, hps⟩ := List.forall_mem_cons.mp hps
      obtain ⟨hnotMem, hnodup⟩ := List.nodup_cons.mp hnodup
      obtain ⟨bs, hinv⟩ := hheap
      have hok₁ : s.ok (.kfree (buffers p)) := .inr (hlive p hp).2
      obtain ⟨bs₁, hinv₁, -⟩ := hinv.kfree hok₁
      have hmem : p ∈ s.live.erase (buffers p) :=
        (List.mem_erase_of_ne (hapart p p hp hp).symm).mpr (hlive p hp).1
      have hok₂ : HeapSys.ok ⟨kfree s.mem (buffers p), s.live.erase (buffers p)⟩ (.kfree p) :=
        .inr hmem
      obtain ⟨bs₂, hinv₂, -⟩ := hinv₁.kfree hok₂
      -- the windows that are left
      have hrest : ∀ win, W win ∧ win ≠ p → win ∈ (freeWindow buffers s p).live ∧
          buffers win ∈ (freeWindow buffers s p).live := by
        intro win ⟨hwin, hne⟩
        have hbuffer : buffers win ≠ buffers p := fun heq => hne (hinj win p hwin hp heq)
        unfold freeWindow
        dsimp only
        rw [List.mem_erase_of_ne hne, List.mem_erase_of_ne (hapart p win hp hwin).symm,
          List.mem_erase_of_ne (hapart win p hwin hp), List.mem_erase_of_ne hbuffer]
        exact hlive win hwin
      rw [List.foldl_cons]
      obtain ⟨hheap', hlive'⟩ := ih ⟨bs₂, hinv₂⟩ hrest
        (fun win win' hwin hwin' => hapart win win' hwin.1 hwin'.1)
        (fun win win' hwin hwin' => hinj win win' hwin.1 hwin'.1)
        (fun q hq => ⟨hps q hq, fun heq => hnotMem (heq ▸ hq)⟩) hnodup
      refine ⟨hheap', ?_⟩
      intro win hwin hnot
      rw [List.mem_cons, not_or] at hnot
      exact hlive' win ⟨hwin, hnot.1⟩ hnot.2

theorem Inv.call (h : d.Inv) {op : Op} {destroyed : List Ptr}
    (hok : d.ok fuel (.call op destroyed)) (hs : d.step fuel (.call op destroyed) = some d') :
    d'.Inv := by
  obtain ⟨g', hg', hs⟩ := Option.bind_eq_some_iff.mp hs
  obtain rfl := Option.some.inj hs
  obtain ⟨hcreates, hnodup, hdestroyed⟩ := hok
  have hdestroyed := hdestroyed g' hg'
  have hfewer : Fewer d.gui g' := by
    apply fewer_frame.call hg'
    rintro x y contentW contentH title object buffer p rfl
    cases hcreates
  obtain ⟨hheap, hlive⟩ := inv_freeWindows (W := fun win => Live d.gui.heap win) h.heap
    (fun win hwin => ⟨h.window win hwin, h.buffer win hwin⟩) h.apart h.inj
    (fun p hp => ((hdestroyed p).mp hp).1) hnodup
  refine h.keep hheap rfl hfewer ?_
  intro win hwin
  exact hlive win (hfewer win hwin) fun hmem => ((hdestroyed win).mp hmem).2 hwin

end Desk

section Create

variable {fuel : Nat} {s : HeapSys} {bs : List Block} {m' : Mem} {g g' : State} {x y : Int}
  {contentW contentH : Nat} {title : CStr}

/-- A failed call leaves the blocks of the heap as they were, and at most takes a window from the
window manager that it had not got. -/
theorem createWindow_none (h : s.Inv bs)
    (hr : createWindow fuel s.mem g x y contentW contentH title = some (m', g', none)) :
    Normal m' bs ∧ (g' = g ∨ ∃ p, p ∉ s.live ∧
      g' = { g with heap := Function.update g.heap p none }) := by
  unfold createWindow at hr
  split at hr
  · obtain ⟨rfl, hpair⟩ := Prod.mk.inj (Option.some.inj hr)
    obtain ⟨rfl, -⟩ := Prod.mk.inj hpair
    exact ⟨⟨h.rep, h.canonical⟩, .inl rfl⟩
  · next hcount =>
      obtain ⟨⟨m₁, object, buffer⟩, halloc, hr⟩ := Option.bind_eq_some_iff.mp hr
      obtain ⟨⟨g₁, win⟩, hcreate, hr⟩ := Option.bind_eq_some_iff.mp hr
      unfold wmCreateWindow at hcreate
      rw [if_neg hcount] at hcreate
      cases allocateWindow_cases h halloc with
      | neither hmem =>
          obtain ⟨rfl, rfl⟩ := Prod.mk.inj (Option.some.inj hcreate)
          obtain ⟨rfl, hpair⟩ := Prod.mk.inj (Option.some.inj hr)
          obtain ⟨rfl, -⟩ := Prod.mk.inj hpair
          rw [hmem]
          exact ⟨⟨h.rep, h.canonical⟩, .inl rfl⟩
      | @window p hfresh hnormal =>
          obtain ⟨rfl, rfl⟩ := Prod.mk.inj (Option.some.inj hcreate)
          obtain ⟨rfl, hpair⟩ := Prod.mk.inj (Option.some.inj hr)
          obtain ⟨rfl, -⟩ := Prod.mk.inj hpair
          exact ⟨hnormal, .inr ⟨p, hfresh, rfl⟩⟩
      | both hboth =>
          obtain ⟨z, -, hcreate⟩ := Option.bind_eq_some_iff.mp hcreate
          obtain ⟨g₂, -, hcreate⟩ := Option.bind_eq_some_iff.mp hcreate
          obtain ⟨g₃, -, hcreate⟩ := Option.bind_eq_some_iff.mp hcreate
          obtain ⟨g₄, -, hcreate⟩ := Option.bind_eq_some_iff.mp hcreate
          obtain ⟨-, rfl⟩ := Prod.mk.inj (Option.some.inj hcreate)
          cases hr

/-- A call that returns a window has allocated both blocks and filled the buffer. -/
theorem createWindow_both (h : s.Inv bs) {win : Ptr}
    (hr : createWindow fuel s.mem g x y contentW contentH title = some (m', g', some win)) :
    ∃ m₁ b bs' v, allocateWindow s.mem x y contentW contentH title = some (m₁, some win, some b) ∧
      Allocated s (u32 (contentW * contentH * 4)) win b m₁ bs' v ∧
      m' = fillBuffer m₁ b (u32 (contentW * contentH)) ∧
      ∀ q, Live g'.heap q → q = win ∨ Live g.heap q := by
  obtain ⟨m₁, b, halloc⟩ := createWindow_some hr
  unfold createWindow at hr
  split at hr
  · cases hr
  · simp only [halloc, Option.bind_eq_bind, Option.bind_some] at hr
    obtain ⟨⟨g₁, p⟩, hcreate, hr⟩ := Option.bind_eq_some_iff.mp hr
    obtain ⟨rfl, hpair⟩ := Prod.mk.inj (Option.some.inj hr)
    obtain ⟨rfl, -⟩ := Prod.mk.inj hpair
    cases allocateWindow_cases h halloc with
    | both hboth => exact ⟨m₁, b, _, _, halloc, hboth, rfl, live_createWindow hcreate⟩

theorem fillBuffer_outside {m : Mem} {b words i : Nat} (h : i < b ∨ b + 4 * words ≤ i) :
    fillBuffer m b words i = m i := by
  have hstores : ∀ (ks : List Nat) (m : Mem), (∀ k ∈ ks, k < words) →
      Words.storeWords (ks.map fun (k : Nat) => (b + 4 * k, colorToPixel wmContentBg)) m i =
        m i := by
    intro ks
    induction ks with
    | nil => exact fun _ _ => rfl
    | cons k ks ih =>
        intro m hks
        obtain ⟨hk, hks⟩ := List.forall_mem_cons.mp hks
        refine (ih _ hks).trans ?_
        apply Bytes.store32_of_outside
        dsimp only
        omega
  exact hstores _ m fun k hk => List.mem_range.mp hk

/-- A loop that fills a buffer inside its block keeps the heap. -/
theorem rep_fillBuffer {m : Mem} (h : Heap.Rep m bs) {b words : Nat}
    (hinside : ∀ a, b ≤ a → a < b + 4 * words → Heap.Payload m a) :
    Heap.Rep (fillBuffer m b words) bs := by
  apply h.congr_payload
  intro i hnot
  apply fillBuffer_outside
  by_contra hin
  exact hnot (hinside i (by omega) (by omega))

end Create

namespace Desk

variable {fuel : Nat} {d d' : Desk}

/-- Two more live blocks: the new window and its buffer. -/
theorem Inv.added (h : d.Inv) {bs : List Block} {mem : Mem} {g' : State} {win b : Ptr}
    (hinv : HeapSys.Inv ⟨mem, b :: win :: d.heap.live⟩ bs) (hwin : win ∉ d.heap.live)
    (hb : b ∉ win :: d.heap.live)
    (hlive : ∀ q, Live g'.heap q → q = win ∨ Live d.gui.heap q) :
    Inv ⟨⟨mem, b :: win :: d.heap.live⟩, g', Function.update d.buffers win b⟩ := by
  rw [List.mem_cons, not_or] at hb
  have hold : ∀ q, Live g'.heap q → q ≠ win → Live d.gui.heap q := fun q hq hne =>
    (hlive q hq).resolve_left hne
  have hbuffer : ∀ q, q ≠ win → Function.update d.buffers win b q = d.buffers q := fun q hne =>
    Function.update_of_ne hne ..
  constructor
  · exact ⟨bs, hinv⟩
  · intro q hq
    by_cases heq : q = win
    · simp [heq]
    · have hmem := h.window q (hold q hq heq)
      simp [hmem]
  · intro q hq
    by_cases heq : q = win
    · simp [heq]
    · have hmem := h.buffer q (hold q hq heq)
      simp [hbuffer q heq, hmem]
  · intro q q' hq hq' heq
    dsimp only at heq hq hq'
    by_cases hqw : q = win
    · -- the new buffer is no window
      rw [hqw, Function.update_self] at heq
      by_cases hqw' : q' = win
      · exact hb.1 (heq.trans hqw')
      · exact hb.2 (heq ▸ h.window q' (hold q' hq' hqw'))
    · rw [hbuffer q hqw] at heq
      have hmem := h.buffer q (hold q hq hqw)
      by_cases hqw' : q' = win
      · exact hwin (hqw' ▸ heq ▸ hmem)
      · exact h.apart q q' (hold q hq hqw) (hold q' hq' hqw') heq
  · intro q q' hq hq' heq
    dsimp only at heq hq hq'
    by_cases hqw : q = win
    · by_cases hqw' : q' = win
      · exact hqw.trans hqw'.symm
      · rw [hqw, Function.update_self, hbuffer q' hqw'] at heq
        exact absurd (heq ▸ h.buffer q' (hold q' hq' hqw')) hb.2
    · rw [hbuffer q hqw] at heq
      by_cases hqw' : q' = win
      · rw [hqw', Function.update_self] at heq
        exact absurd (heq ▸ h.buffer q (hold q hq hqw)) hb.2
      · rw [hbuffer q' hqw'] at heq
        exact h.inj q q' (hold q hq hqw) (hold q' hq' hqw') heq

/-- A failed call leaves the window manager as it was. -/
theorem Inv.failed (h : d.Inv) {bs : List Block} (hbs : d.heap.Inv bs) {m' : Mem} {g' : State}
    {x y : Int} {contentW contentH : Nat} {title : CStr}
    (hr : createWindow fuel d.heap.mem d.gui x y contentW contentH title = some (m', g', none)) :
    Normal m' bs ∧ g' = d.gui := by
  obtain ⟨hnormal, hg'⟩ := createWindow_none hbs hr
  refine ⟨hnormal, ?_⟩
  rcases hg' with rfl | ⟨p, hp, rfl⟩
  · rfl
  · have hnone : d.gui.heap p = none := by
      rw [← Option.not_isSome_iff_eq_none]
      exact fun hlive => hp (h.window p hlive)
    rw [← hnone, Function.update_eq_self]

theorem Inv.create (h : d.Inv) {x y : Int} {contentW contentH : Nat} {title : CStr}
    (hok : d.ok fuel (.create x y contentW contentH title))
    (hs : d.step fuel (.create x y contentW contentH title) = some d') : d'.Inv := by
  obtain ⟨bs, hbs⟩ := h.heap
  obtain ⟨⟨m', g', win⟩, hcreate, hs⟩ := Option.bind_eq_some_iff.mp hs
  cases win with
  | none =>
      obtain rfl := Option.some.inj hs
      obtain ⟨hnormal, rfl⟩ := h.failed hbs hcreate
      exact h.keep ⟨bs, hnormal.rep, hnormal.canonical, hbs.live⟩ rfl (fewer_frame.refl _)
        fun win hwin => ⟨h.window win hwin, h.buffer win hwin⟩
  | some win =>
      obtain ⟨m₁, b, bs', v, halloc, hboth, rfl, hlive⟩ := createWindow_both hbs hcreate
      simp only [halloc, Option.bind_eq_bind, Option.bind_some, Option.pure_def,
        Option.some.injEq] at hs
      obtain rfl := hs
      have hfilled : HeapSys.Inv ⟨fillBuffer m₁ b (u32 (contentW * contentH)),
          b :: win :: d.heap.live⟩ bs' :=
        ⟨rep_fillBuffer hboth.inv.rep (hok m₁ win b halloc), hboth.inv.canonical, hboth.inv.live⟩
      exact h.added hfilled hboth.window.2 hboth.buffer.2 hlive

theorem reach_inv {m : Mem} {g : State} (hheap : ∀ p, g.heap p = none)
    (h : Reach (step fuel) (ok fuel) (boot m g) d) : d.Inv := by
  apply h.invariant (boot_inv m hheap)
  intro d act d' hinv hok hs
  cases act with
  | client act => exact hinv.client hok hs
  | create => exact hinv.create hok hs
  | call op destroyed => exact hinv.call hok hs

/-- In every state that is reached by the calls of the window manager and the other clients of
the heap, and for all arguments: a call of `wm_create_window` that returns NULL leaves the window
manager and the blocks of the heap as they were. -/
theorem failed_create_no_effect {m : Mem} {g : State} (hheap : ∀ p, g.heap p = none)
    (h : Reach (step fuel) (ok fuel) (boot m g) d) (x y : Int) (contentW contentH : Nat)
    (title : CStr) {m' : Mem} {g' : State}
    (hr : createWindow fuel d.heap.mem d.gui x y contentW contentH title = some (m', g', none)) :
    g' = d.gui ∧ ∃ es, Heap.blockStructure d.heap.mem = some es ∧
      Heap.blockStructure m' = some es := by
  have hinv := reach_inv hheap h
  obtain ⟨bs, hbs⟩ := hinv.heap
  obtain ⟨hnormal, hg'⟩ := hinv.failed hbs hr
  exact ⟨hg', _, hbs.rep.blockStructure, hnormal.rep.blockStructure⟩

/-- Every run of the heap is one of a desk without windows. -/
theorem reach_clients {m : Mem} {g : State} (hheap : ∀ p, g.heap p = none) {s : HeapSys}
    (h : Reach HeapSys.step HeapSys.ok (HeapSys.boot m) s) :
    Reach (step fuel) (ok fuel) (boot m g) ⟨s, wmInit g, fun _ => 0⟩ := by
  induction h with
  | refl => exact .refl
  | @step s s' act _ hok hs ih =>
      refine .step (a := .client act) ih ⟨hok, ?_⟩ ?_
      · intro p _ ⟨win, hwin, _⟩
        have hlive : (g.heap win).isSome = true := hwin
        rw [hheap] at hlive
        cases hlive
      · simp only [step, hs]
        rfl

/-- In front of a block that is in use, a window fits into a free one, and its buffer of a million
pixels fits nowhere. -/
theorem failed_create_no_effect_demo : ∃ s m' g',
    Reach HeapSys.step HeapSys.ok (HeapSys.boot fun _ => 0) s ∧ s.live = [0x20006C] ∧
    createWindow 16 s.mem bootGui 50 50 1000 1000 CStr.empty = some (m', g', none) ∧
    g' = bootGui ∧ ∃ es, Heap.blockStructure s.mem = some es ∧
      Heap.blockStructure m' = some es := by
  have hrun : ((some (HeapSys.boot fun _ => 0)).bind (runList HeapSys.step HeapSys.okFirst
      [.kmalloc 96, .kmalloc 16, .kfree 0x200004])).any
        (fun s => s.live == [0x20006C] && (createWindow 16 s.mem bootGui 50 50 1000 1000
          CStr.empty).any fun r => r.2.2.isNone) = true := by
    decide +kernel
  obtain ⟨s₀, s, hs₀, hreach, htest⟩ := Reach.exists_of_runList hrun
  obtain rfl := Option.some.inj hs₀
  have hok := hreach.mono fun s a => HeapSys.okFirst_ok
  rw [Bool.and_eq_true] at htest
  obtain ⟨⟨m', g', win⟩, hcreate, hwin⟩ := Option.any_eq_true _ _ |>.mp htest.2
  obtain rfl : win = none := by simpa using hwin
  have heffect := failed_create_no_effect (fun _ => rfl)
    (@reach_clients 16 _ (State.boot bootScreen fun _ => 0) (fun _ => rfl) s hok) 50 50 1000 1000
      CStr.empty hcreate
  exact ⟨s, m', g', hok, by simpa using htest.1, hcreate, heffect⟩

end Desk

end SRos.Gui
