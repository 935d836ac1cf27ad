import BlockGraph.Lowering.Program
import BlockGraph.Proofs.Builder.Advances

namespace BlockGraph.Lowering

open Builder

def LoopTargets.waiting : LoopTargets → List BlockId
  | .known _ _ => []
  | .queued leaving repeating => leaving ++ repeating

def waiting (loops : List LoopFrame) : List BlockId := loops.flatMap (·.targets.waiting)

inductive LoopTargets.Grows : LoopTargets → LoopTargets → Prop
  | known (test exit : BlockId) : Grows (.known test exit) (.known test exit)
  | queued (leaving repeating more again : List BlockId) :
      Grows (.queued leaving repeating) (.queued (leaving ++ more) (repeating ++ again))

structure LoopFrame.Grows (f f' : LoopFrame) : Prop where
  label : f'.label = f.label
  targets : f.targets.Grows f'.targets

theorem LoopTargets.Grows.refl (t : LoopTargets) : t.Grows t := by
  cases t with
  | known test exit => exact .known test exit
  | queued leaving repeating => simpa using Grows.queued leaving repeating [] []

theorem LoopTargets.Grows.trans {t u v : LoopTargets} (h : t.Grows u) (k : u.Grows v) :
    t.Grows v := by
  cases h with
  | known test exit => exact k
  | queued leaving repeating more again =>
    cases k with
    | queued _ _ more' again' =>
      rw [List.append_assoc, List.append_assoc]
      exact .queued ..

theorem LoopFrame.Grows.refl (f : LoopFrame) : f.Grows f := ⟨rfl, .refl _⟩

theorem LoopFrame.Grows.trans {f g h : LoopFrame} (hfg : f.Grows g) (hgh : g.Grows h) : f.Grows h :=
  ⟨hgh.label.trans hfg.label, hfg.targets.trans hgh.targets⟩

abbrev LoopsGrow : List LoopFrame → List LoopFrame → Prop := List.Forall₂ LoopFrame.Grows

theorem LoopsGrow.refl (ls : List LoopFrame) : LoopsGrow ls ls :=
  List.forall₂_same.2 fun f _ => .refl f

theorem LoopsGrow.trans {ls ls' ls'' : List LoopFrame} (h : LoopsGrow ls ls')
    (k : LoopsGrow ls' ls'') : LoopsGrow ls ls'' := by
  induction h generalizing ls'' with
  | nil =>
    cases k
    exact .nil
  | cons hf _ ih =>
    cases k with
    | cons hf' hrest => exact .cons (hf.trans hf') (ih hrest)

structure State.Registered (s : State) : Prop where
  entry : ∀ (k : Nat) (e : FunctionEntry), s.functions[k]? = some e →
    ∃ B, s.graph.block? e.entry = some B
  entry_inj : ∀ (k k' : Nat) (e e' : FunctionEntry), s.functions[k]? = some e →
    s.functions[k']? = some e' → e.entry = e'.entry → k = k'
  layout : ∀ (k : Nat) (l : LayoutId), s.classes[k]? = some l →
    ∃ L name, s.graph.layout? l = some L ∧ L.origin = .ofClass name
  layout_inj : ∀ (k k' : Nat) (l : LayoutId), s.classes[k]? = some l → s.classes[k']? = some l →
    k = k'

/-- Lowering moves from the open blocks `X` to the open blocks `Y` and to blocks that wait. The
functions `fs` and the classes `cs` may become known on the way. -/
structure Shifts (fs : List FunctionId) (cs : List ClassId) (X : List BlockId) (s : State)
    (Y : List BlockId) (s' : State) : Prop where
  moves : ∃ E N, Moves E X s.toBuilder (Y ++ N) s'.toBuilder ∧
    (waiting s'.loops).Perm (waiting s.loops ++ N) ∧
    ∀ e ∈ E, ∃ f ∈ fs, ∃ r, s'.functions[f.index]? = some r ∧ r.entry = e
  loops : LoopsGrow s.loops s'.loops
  functions : ∀ k : Nat, (∀ f ∈ fs, f.index ≠ k) → s'.functions[k]? = s.functions[k]?
  classes : ∀ k : Nat, (∀ c ∈ cs, c.index ≠ k) → s'.classes[k]? = s.classes[k]?
  registered : s.Registered → s'.Registered

namespace Shifts

variable {fs fs' : List FunctionId} {cs cs' : List ClassId} {X Y Z : List BlockId}
  {s s' s'' : State}

theorem trans (h : Shifts fs cs X s Y s') (k : Shifts fs' cs' Y s' Z s'')
    (hfs : ∀ f ∈ fs, ∀ f' ∈ fs', f ≠ f') : Shifts (fs ++ fs') (cs ++ cs') X s Z s'' := by
  obtain ⟨E, N, hmoves, hwait, hentries⟩ := h.moves
  obtain ⟨E', N', kmoves, kwait, kentries⟩ := k.moves
  refine ⟨⟨E ++ E', N' ++ N, ?_, ?_, ?_⟩, h.loops.trans k.loops, ?_, ?_,
    fun hs => k.registered (h.registered hs)⟩
  · rw [← List.append_assoc]
    exact hmoves.trans (kmoves.frame N)
  · exact kwait.trans (by grind)
  · intro e he
    rcases List.mem_append.1 he with he | he
    · obtain ⟨f, hf, r, hr, rfl⟩ := hentries e he
      refine ⟨f, List.mem_append_left _ hf, r, ?_, rfl⟩
      rw [k.functions _ fun f' hf' hi => hfs f hf f' hf' (by cases f; cases f'; simp_all), hr]
    · obtain ⟨f, hf, r, hr⟩ := kentries e he
      exact ⟨f, List.mem_append_right _ hf, r, hr⟩
  · intro n hn
    rw [k.functions n fun f hf => hn f (List.mem_append_right _ hf),
      h.functions n fun f hf => hn f (List.mem_append_left _ hf)]
  · intro n hn
    rw [k.classes n fun c hc => hn c (List.mem_append_right _ hc),
      h.classes n fun c hc => hn c (List.mem_append_left _ hc)]

theorem andThen (h : Shifts fs cs X s Y s') (k : Shifts [] [] Y s' Z s'') :
    Shifts fs cs X s Z s'' := by
  simpa using h.trans k (by simp)

theorem frame (h : Shifts fs cs X s Y s') (Z : List BlockId) :
    Shifts fs cs (X ++ Z) s (Y ++ Z) s' := by
  obtain ⟨E, N, hmoves, hwait, hentries⟩ := h.moves
  exact ⟨⟨E, N, (hmoves.frame Z).perm .rfl (by grind), hwait, hentries⟩, h.loops, h.functions,
    h.classes, h.registered⟩

theorem perm {X' Y' : List BlockId} (h : Shifts fs cs X s Y s') (hX : X.Perm X')
    (hY : Y.Perm Y') : Shifts fs cs X' s Y' s' := by
  obtain ⟨E, N, hmoves, hwait, hentries⟩ := h.moves
  exact ⟨⟨E, N, hmoves.perm hX (hY.append_right N), hwait, hentries⟩, h.loops, h.functions,
    h.classes, h.registered⟩

theorem mono (h : Shifts fs cs X s Y s') (hf : ∀ f ∈ fs, f ∈ fs') (hc : ∀ c ∈ cs, c ∈ cs') :
    Shifts fs' cs' X s Y s' := by
  obtain ⟨E, N, hmoves, hwait, hentries⟩ := h.moves
  refine ⟨⟨E, N, hmoves, hwait, fun e he => ?_⟩, h.loops,
    fun k hk => h.functions k fun f hf' => hk f (hf f hf'),
    fun k hk => h.classes k fun c hc' => hk c (hc c hc'), h.registered⟩
  obtain ⟨f, hf', hr⟩ := hentries e he
  exact ⟨f, hf f hf', hr⟩

theorem of_moves {t : Builder} (h : Moves [] X s.toBuilder Y t) :
    Shifts [] [] X s Y { s with toBuilder := t } := by
  refine ⟨⟨[], [], by simpa using h, by simp, by simp⟩, .refl _, fun _ _ => rfl, fun _ _ => rfl, ?_⟩
  intro hs
  refine ⟨fun k e he => ?_, hs.entry_inj, fun k l hl => ?_, hs.layout_inj⟩
  · obtain ⟨B, hB⟩ := hs.entry k e he
    obtain ⟨B', hB', -⟩ := h.graph_extends _ B hB
    exact ⟨B', hB'⟩
  · obtain ⟨L, name, hL, ho⟩ := hs.layout k l hl
    exact ⟨L, name, h.layouts l L hL, ho⟩

theorem refl (X : List BlockId) (s : State) : Shifts [] [] X s X s := of_moves (.refl X _)

end Shifts

def Rebuilds (X : List BlockId) (s : State) (Y : List BlockId) (s' : State) : Prop :=
  ∃ t, Moves [] X s.toBuilder Y t ∧ s' = { s with toBuilder := t }

namespace Rebuilds

variable {X Y Z : List BlockId} {s s' s'' : State}

theorem of_moves {t : Builder} (h : Moves [] X s.toBuilder Y t) :
    Rebuilds X s Y { s with toBuilder := t } := ⟨t, h, rfl⟩

theorem of_lift {α : Type} {x : BuildM α} {a : α} (h : Runs (liftM x : LowerM α) s a s')
    (hx : ∀ {t}, Runs x s.toBuilder a t → Moves [] X s.toBuilder Y t) : Rebuilds X s Y s' := by
  obtain ⟨t, ht, rfl⟩ := Runs.lift_build_iff.1 h
  exact of_moves (hx ht)

theorem refl (X : List BlockId) (s : State) : Rebuilds X s X s := of_moves (.refl X _)

theorem trans (h : Rebuilds X s Y s') (k : Rebuilds Y s' Z s'') : Rebuilds X s Z s'' := by
  obtain ⟨t, ht, rfl⟩ := h
  obtain ⟨u, hu, rfl⟩ := k
  exact ⟨u, ht.trans hu, rfl⟩

theorem frame (h : Rebuilds X s Y s') (Z : List BlockId) : Rebuilds (X ++ Z) s (Y ++ Z) s' := by
  obtain ⟨t, ht, rfl⟩ := h
  exact ⟨t, ht.frame Z, rfl⟩

theorem perm {X' Y' : List BlockId} (h : Rebuilds X s Y s') (hX : X.Perm X') (hY : Y.Perm Y') :
    Rebuilds X' s Y' s' := by
  obtain ⟨t, ht, rfl⟩ := h
  exact ⟨t, ht.perm hX hY, rfl⟩

theorem shifts (h : Rebuilds X s Y s') : Shifts [] [] X s Y s' := by
  obtain ⟨t, ht, rfl⟩ := h
  exact .of_moves ht

theorem loops (h : Rebuilds X s Y s') : s'.loops = s.loops := by
  obtain ⟨t, -, rfl⟩ := h
  rfl

theorem keeps (h : Rebuilds X s Y s') {c : BlockId} {B : Block} (hc : c ∉ X)
    (hB : s.graph.block? c = some B) : s'.graph.block? c = some B := by
  obtain ⟨t, ht, rfl⟩ := h
  exact ht.keeps c B hc hB

theorem apart (h : Rebuilds X s Y s') {c : BlockId} {B : Block} (hc : c ∉ X)
    (hB : s.graph.block? c = some B) : c ∉ Y := by
  obtain ⟨t, ht, rfl⟩ := h
  intro hY
  rcases ht.fresh c hY with hX | ⟨hnone, -⟩
  · exact hc hX
  · simp [hnone] at hB

end Rebuilds

abbrev Advances (b : BlockId) (s : State) (c : BlockId) (s' : State) : Prop :=
  Rebuilds [b] s [c] s'

instance : Chains Advances where
  refl b s := .refl [b] s
  trans h k := h.trans k

end BlockGraph.Lowering
