import SRos.Gui.System

/-!
# The framebuffer descriptor

`rep stosl` leaves EDI behind the last word it has stored, and the zero-window branch of
`wm_composite` binds `fb.addr` itself to EDI. Every other step of the window manager and the
cursor keeps the descriptor. `Trail` follows the descriptor through the calls of `wm_composite`
in a run.
-/

namespace SRos.Gui

open LinkedList Stores

/-- The call fills the desktop, and the fill ends at another address than it starts from. -/
def Composite.Clears (c : Composite) : Prop :=
  c.count = 0 ∧ c.needsComposite = true ∧
    u32 (4 * u32 (c.before.height * c.before.pitchDwords)) ≠ 0

/-- The address of a word of the framebuffer `fb`. -/
def Framebuffer.HasWord (fb : Framebuffer) (a : Nat) : Prop :=
  ∃ i, i < fb.height * fb.pitchDwords ∧ a = fb.addr + 4 * i

/-- The call has kept the descriptor and has stored to words of `fb` only. -/
def Composite.Keeps (c : Composite) (fb : Framebuffer) : Prop :=
  c.after = c.before ∧ ∀ a ∈ c.stored, fb.HasWord a

variable {g g' g'' : State}

theorem OnScreen.hasWord {fb : Framebuffer} (hpitch : fb.width ≤ fb.pitchDwords) {a : Nat}
    (h : OnScreen fb a) : fb.HasWord a := by
  obtain ⟨sx, sy, hsx, hsy, rfl⟩ := h
  have hindex : sy * fb.pitchDwords + sx < fb.height * fb.pitchDwords := by
    calc sy * fb.pitchDwords + sx < sy * fb.pitchDwords + fb.pitchDwords :=
          Nat.add_lt_add_left (hsx.trans_le hpitch) _
      _ = (sy + 1) * fb.pitchDwords := (Nat.succ_mul _ _).symm
      _ ≤ fb.height * fb.pitchDwords := Nat.mul_le_mul_right _ hsy
  exact ⟨_, (Nat.mod_le _ _).trans_lt hindex, rfl⟩

/-! ## One call of `wm_composite` -/

/-- The stores between two states, to addresses that satisfy `P`. -/
def StoredIn (P : Nat → Prop) (g g' : State) : Prop :=
  ∃ as, g'.stored = g.stored ++ as ∧ ∀ a ∈ as, P a

theorem StoredIn.trans {P : Nat → Prop} (h : StoredIn P g g') (h' : StoredIn P g' g'') :
    StoredIn P g g'' := by
  obtain ⟨as, has, hP⟩ := h
  obtain ⟨bs, hbs, hP'⟩ := h'
  refine ⟨as ++ bs, by rw [hbs, has, List.append_assoc], ?_⟩
  intro a ha
  rcases List.mem_append.mp ha with ha | ha
  · exact hP a ha
  · exact hP' a ha

theorem compositeWindow_stored (x : Ptr × Window) :
    StoredIn (OnScreen g.fb) g (compositeWindow g x) := by
  unfold compositeWindow
  split
  · exact (Painted.emit (allOnScreen_drawWindow x.2)).stored
  · exact (Painted.refl g).stored

/-- The drawing loop keeps the descriptor and the record of the calls, and stores to pixels. -/
theorem foldl_compositeWindow (xs : List (Ptr × Window)) :
    (xs.foldl compositeWindow g).fb = g.fb ∧
      (xs.foldl compositeWindow g).composites = g.composites ∧
      StoredIn (OnScreen g.fb) g (xs.foldl compositeWindow g) := by
  induction xs generalizing g with
  | nil => exact ⟨rfl, rfl, (Painted.refl g).stored⟩
  | cons x xs ih =>
      have hfb : (compositeWindow g x).fb = g.fb := by
        unfold compositeWindow
        split <;> rfl
      have hcalls : (compositeWindow g x).composites = g.composites := by
        unfold compositeWindow
        split <;> rfl
      obtain ⟨ihfb, ihcalls, ihstored⟩ := @ih (compositeWindow g x)
      rw [hfb] at ihfb ihstored
      exact ⟨ihfb, ihcalls.trans hcalls, (compositeWindow_stored x).trans ihstored⟩

/-- What a call of `wm_composite` does to the descriptor of a mapped framebuffer. -/
structure Composite.Spec (c : Composite) : Prop where
  moves : c.before.addr ≠ 0 → c.before.addr < 2 ^ 32 → c.Clears → c.after ≠ c.before
  keeps : c.before.addr < 2 ^ 32 → c.before.width ≤ c.before.pitchDwords → ¬ c.Clears →
    c.Keeps c.before

/-- The record of a call that starts in `g` and ends in `g'`. -/
def record (g g' : State) : Composite :=
  { count := g.wm.count, needsComposite := g.wm.needsComposite, before := g.fb, after := g'.fb
    stored := g'.stored.drop g.stored.length }

theorem StoredIn.record {P : Nat → Prop} (h : StoredIn P g g') : ∀ a ∈ (Gui.record g g').stored, P a := by
  obtain ⟨as, has, hP⟩ := h
  simpa [Gui.record, has] using hP

theorem StoredIn.mono {P Q : Nat → Prop} (h : StoredIn P g g') (himp : ∀ a, P a → Q a) :
    StoredIn Q g g' := by
  obtain ⟨as, has, hP⟩ := h
  exact ⟨as, has, fun a ha => himp a (hP a ha)⟩

/-- The zero-window branch. -/
theorem redraw_empty {fuel : Nat} (h : redraw fuel g = some g') (hcount : g.wm.count = 0) :
    g'.fb = { g.fb with addr := u32 (g.fb.addr + 4 * u32 (g.fb.height * g.fb.pitchDwords)) } ∧
      g'.composites = g.composites ∧ StoredIn g.fb.HasWord g g' := by
  unfold redraw at h
  rw [if_pos hcount] at h
  obtain rfl := Option.some.inj h
  refine ⟨rfl, rfl, _, rfl, ?_⟩
  intro a ha
  simp only [List.map_map, List.mem_map, List.mem_range, Function.comp_apply] at ha
  obtain ⟨i, hi, rfl⟩ := ha
  exact ⟨i, hi.trans_le (Nat.mod_le _ _), rfl⟩

/-- The drawing loop. -/
theorem redraw_windows {fuel : Nat} (h : redraw fuel g = some g') (hcount : g.wm.count ≠ 0) :
    g'.fb = g.fb ∧ g'.composites = g.composites ∧ StoredIn (OnScreen g.fb) g g' := by
  unfold redraw at h
  rw [if_neg hcount] at h
  obtain ⟨xs, -, hg'⟩ := Option.bind_eq_some_iff.mp h
  obtain rfl := Option.some.inj hg'
  exact foldl_compositeWindow xs

theorem record_spec_of_eq (hfb : g'.fb = g.fb) (hstored : g'.stored = g.stored)
    (hidle : g.fb.addr = 0 ∨ g.wm.needsComposite = false) : (record g g').Spec := by
  constructor
  · intro haddr _ hclears
    rcases hidle with hidle | hidle
    · exact absurd hidle haddr
    · have hneeds : g.wm.needsComposite = true := hclears.2.1
      rw [hidle] at hneeds
      cases hneeds
  · intro _ _ _
    exact ⟨hfb, by simp [record, hstored]⟩

theorem compositeBody_spec {fuel : Nat} (h : compositeBody fuel g = some g') :
    g'.composites = g.composites ∧ (record g g').Spec := by
  unfold compositeBody at h
  split at h
  · next haddr =>
      obtain rfl := Option.some.inj h
      exact ⟨rfl, record_spec_of_eq rfl rfl (.inl haddr)⟩
  split at h
  · next hidle =>
      obtain rfl := Option.some.inj h
      exact ⟨rfl, record_spec_of_eq rfl rfl (.inr hidle.2)⟩
  next haddr hbusy =>
  obtain ⟨g₂, hg₂, hg'⟩ := Option.bind_eq_some_iff.mp h
  obtain rfl := Option.some.inj hg'
  have hremove := @painted_remove g g.cursor.visible
  have hrestore := @painted_restore g₂ g.cursor.visible
  generalize (bif g.cursor.visible then cursorRemove g else g) = g₁ at hg₂ hremove
  by_cases hcount : g.wm.count = 0
  · have hneeds : g.wm.needsComposite = true := by simpa [hcount] using hbusy
    obtain ⟨hfb₂, hcalls₂, hstored₂⟩ := redraw_empty hg₂ (by rw [hremove.wm]; exact hcount)
    rw [hremove.fb] at hfb₂ hstored₂
    refine ⟨hrestore.composites.trans (hcalls₂.trans hremove.composites), ?_, ?_⟩
    · intro _ hlt hclears heq
      have hmoved : u32 (g.fb.addr + 4 * u32 (g.fb.height * g.fb.pitchDwords)) = g.fb.addr := by
        have hafter := congrArg Framebuffer.addr ((hfb₂.symm.trans hrestore.fb.symm).trans heq)
        exact hafter
      have hne : u32 (4 * u32 (g.fb.height * g.fb.pitchDwords)) ≠ 0 := hclears.2.2
      have hlt' : g.fb.addr < 2 ^ 32 := hlt
      generalize u32 (g.fb.height * g.fb.pitchDwords) = n at hmoved hne
      unfold u32 at hmoved hne
      omega
    · intro hlt hpitch hclears
      have hlt' : g.fb.addr < 2 ^ 32 := hlt
      have hzero : u32 (4 * u32 (g.fb.height * g.fb.pitchDwords)) = 0 := by
        by_contra hne
        exact hclears ⟨hcount, hneeds, hne⟩
      have hsame : u32 (g.fb.addr + 4 * u32 (g.fb.height * g.fb.pitchDwords)) = g.fb.addr := by
        generalize u32 (g.fb.height * g.fb.pitchDwords) = n at hzero ⊢
        unfold u32 at hzero ⊢
        omega
      rw [hsame] at hfb₂
      have hword : ∀ a, OnScreen g.fb a → g.fb.HasWord a := fun a ha => ha.hasWord hpitch
      have hstored₃ := hrestore.stored
      rw [hfb₂] at hstored₃
      exact ⟨hrestore.fb.trans hfb₂, StoredIn.record
        ((StoredIn.mono hremove.stored hword).trans
          (hstored₂.trans (StoredIn.mono hstored₃ hword)))⟩
  · obtain ⟨hfb₂, hcalls₂, hstored₂⟩ := redraw_windows hg₂ (by rw [hremove.wm]; exact hcount)
    rw [hremove.fb] at hfb₂ hstored₂
    refine ⟨hrestore.composites.trans (hcalls₂.trans hremove.composites),
      fun _ _ hclears => absurd hclears.1 hcount, ?_⟩
    intro _ hpitch _
    have hword : ∀ a, OnScreen g.fb a → g.fb.HasWord a := fun a ha => ha.hasWord hpitch
    have hstored₃ := hrestore.stored
    rw [hfb₂] at hstored₃
    exact ⟨hrestore.fb.trans hfb₂, StoredIn.record (StoredIn.mono
      (StoredIn.trans hremove.stored (StoredIn.trans hstored₂ hstored₃)) hword)⟩

/-! ## The calls of a run -/

/-- Every call starts from the descriptor that the one before it has left. -/
def Trail : Framebuffer → List Composite → Framebuffer → Prop
  | fb, [], fb' => fb' = fb
  | fb, c :: cs, fb' => c.before = fb ∧ c.Spec ∧ Trail c.after cs fb'

theorem Trail.append {fb fb' fb'' : Framebuffer} {cs cs' : List Composite} (h : Trail fb cs fb')
    (h' : Trail fb' cs' fb'') : Trail fb (cs ++ cs') fb'' := by
  induction cs generalizing fb with
  | nil =>
      have heq : fb' = fb := h
      rwa [← heq]
  | cons c cs ih => exact ⟨h.1, h.2.1, ih h.2.2⟩

/-- The calls between two states. -/
def Logged (g g' : State) : Prop :=
  ∃ cs, g'.composites = g.composites ++ cs ∧ Trail g.fb cs g'.fb

theorem Logged.of_eq (hfb : g'.fb = g.fb) (hcalls : g'.composites = g.composites) : Logged g g' :=
  ⟨[], by simp [hcalls], hfb⟩

theorem Logged.trans (h : Logged g g') (h' : Logged g' g'') : Logged g g'' := by
  obtain ⟨cs, hcs, htrail⟩ := h
  obtain ⟨cs', hcs', htrail'⟩ := h'
  exact ⟨cs ++ cs', by rw [hcs', hcs, List.append_assoc], htrail.append htrail'⟩

theorem Painted.logged (h : Painted g g') : Logged g g' := .of_eq h.fb h.composites

theorem OnlyWindows.logged (h : OnlyWindows g g') : Logged g g' := .of_eq h.fb h.composites

theorem logged_wmComposite {fuel : Nat} (h : wmComposite fuel g = some g') : Logged g g' := by
  obtain ⟨g₁, hg₁, hg'⟩ := Option.bind_eq_some_iff.mp h
  obtain rfl := Option.some.inj hg'
  obtain ⟨hcalls, hspec⟩ := compositeBody_spec hg₁
  exact ⟨[record g g₁], by simp [hcalls, record], rfl, hspec, rfl⟩

theorem logged_frame : CallFrame Logged where
  refl _ := .of_eq rfl rfl
  trans h h' := h.trans h'
  wm _ _ := .of_eq rfl rfl
  modify h := (onlyWindows_frame.modify h).logged
  remove _ _ := .of_eq rfl rfl
  painted h := h.logged
  composite h := logged_wmComposite h
  buttonsLast _ _ := .of_eq rfl rfl

/-- Every call of the interface only changes the descriptor through `wm_composite`. -/
theorem logged_call {fuel : Nat} {op : Op} (h : call fuel g op = some g') : Logged g g' := by
  apply logged_frame.call h
  intro x y contentW contentH title object buffer p _ hcreate
  exact (onlyWindows_createWindow hcreate).logged

/-- As long as no call fills the desktop, every call starts from the same descriptor. -/
theorem Trail.keeps_iff {fb fb' : Framebuffer} {cs : List Composite} (h : Trail fb cs fb')
    (haddr : fb.addr ≠ 0) (hlt : fb.addr < 2 ^ 32) (hpitch : fb.width ≤ fb.pitchDwords) :
    (∀ c ∈ cs, c.Keeps fb) ↔ ∀ c ∈ cs, ¬ c.Clears := by
  induction cs with
  | nil => simp
  | cons c cs ih =>
      obtain ⟨hbefore, hspec, hrest⟩ := h
      rw [List.forall_mem_cons, List.forall_mem_cons]
      by_cases hclears : c.Clears
      · have hmoves : c.after ≠ c.before :=
          hspec.moves (hbefore ▸ haddr) (hbefore ▸ hlt) hclears
        exact ⟨fun hkeeps => absurd hkeeps.1.1 hmoves, fun hnot => absurd hclears hnot.1⟩
      · have hkeeps : c.Keeps fb := by
          have hkeeps := hspec.keeps (hbefore ▸ hlt) (hbefore ▸ hpitch) hclears
          rwa [hbefore] at hkeeps
        have hafter : c.after = fb := hkeeps.1.trans hbefore
        rw [hafter] at hrest
        rw [ih hrest]
        exact ⟨fun hall => ⟨hclears, hall.2⟩, fun hall => ⟨hkeeps, hall.2⟩⟩

/-- In every run after `framebuffer_map`, the calls of `wm_composite` keep the descriptor and
store only to words of the mapped framebuffer exactly when none of them fills the desktop of a
screen without windows. -/
theorem descriptor_kept_iff (fuel : Nat) (physAddr width height pitch bpp : Nat)
    (hpitch : width ≤ pitch / 4) (g s : State)
    (hfb : g.fb = framebufferMap (framebufferInit physAddr width height pitch bpp))
    (hcalls : g.composites = []) (hrun : Reach (call fuel) (fun _ _ => True) g s) :
    (∀ c ∈ s.composites, c.Keeps g.fb) ↔ ∀ c ∈ s.composites, ¬ c.Clears := by
  obtain ⟨cs, hcs, htrail⟩ : Logged g s :=
    hrun.invariant (.of_eq rfl rfl) fun _ _ _ hlog _ hstep => hlog.trans (logged_call hstep)
  have haddr : g.fb.addr = virtBase := by
    rw [hfb]
    rfl
  have hwidth : g.fb.width ≤ g.fb.pitchDwords := by
    rw [hfb]
    exact hpitch
  rw [hcs, hcalls, List.nil_append]
  exact htrail.keeps_iff (by rw [haddr]; decide) (by rw [haddr]; decide) hwidth

/-- A window is created and drawn, and another one is opened and closed on top of it. -/
theorem descriptor_kept_two_windows : ∃ g s : State,
    Reach (call 16) (fun _ _ => True) g s ∧ s.composites.length = 2 ∧
      ∀ c ∈ s.composites, c.Keeps g.fb := by
  let g := wmInit (State.boot (framebufferMap (framebufferInit 0 2 2 8 32)) fun _ => 0)
  have hrun : ((some g).bind (runList (call 16) (fun _ _ => true)
      [.create 0 0 24 1 CStr.empty (some 100) (some fun _ => 0), .composite,
        .create 0 0 24 1 CStr.empty (some 200) (some fun _ => 0), .click 9 5 1])).any
      (fun s => decide (s.composites.length = 2) && s.composites.all fun c => c.count ≠ 0) =
        true := by
    decide +kernel
  obtain ⟨s₀, s, h₀, h, hp⟩ := Reach.exists_of_runList hrun
  obtain rfl := Option.some.inj h₀
  obtain ⟨hlen, hcount⟩ := Bool.and_eq_true_iff.mp hp
  have hreach : Reach (call 16) (fun _ _ => True) g s := h.mono fun _ _ _ => trivial
  refine ⟨g, s, hreach, of_decide_eq_true hlen, ?_⟩
  rw [descriptor_kept_iff 16 0 2 2 8 32 (by decide) g s rfl rfl hreach]
  intro c hc hclears
  exact of_decide_eq_true (List.all_eq_true.mp hcount c hc) hclears.1

/-- The only window is closed by a click: the fill of the desktop moves `fb.addr` to the end of
the framebuffer. -/
theorem descriptor_moved : ∃ g s : State,
    g.fb = framebufferMap (framebufferInit 0 2 2 8 32) ∧ g.composites = [] ∧
      Reach (call 16) (fun _ _ => True) g s ∧ ¬ ∀ c ∈ s.composites, c.Keeps g.fb := by
  let g := wmInit (State.boot (framebufferMap (framebufferInit 0 2 2 8 32)) fun _ => 0)
  have hrun : ((some g).bind (runList (call 16) (fun _ _ => true)
      [.create 0 0 24 1 CStr.empty (some 100) (some fun _ => 0), .click 9 5 1])).any
      (fun s => s.composites.any fun c => c.after.addr ≠ c.before.addr) = true := by
    decide +kernel
  obtain ⟨s₀, s, h₀, h, hp⟩ := Reach.exists_of_runList hrun
  obtain rfl := Option.some.inj h₀
  obtain ⟨c, hc, hne⟩ := List.any_eq_true.mp hp
  refine ⟨g, s, rfl, rfl, h.mono fun _ _ _ => trivial, fun hkeeps => ?_⟩
  exact of_decide_eq_true hne (congrArg Framebuffer.addr (hkeeps c hc).1)

end SRos.Gui
