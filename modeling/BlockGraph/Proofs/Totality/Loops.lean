import BlockGraph.Proofs.Lowering.Statements
import BlockGraph.Proofs.Totality.Expressions

namespace BlockGraph.Lowering

open Builder Analysis

variable {fs : List FunctionId} {cs : List ClassId} {X Y Z : List BlockId} {s s' : State}
  {slot : Option ValueType} {b : BlockId} {Γ Γ' : Context} {base : Context}
  {qs leaving repeating : List BlockId} {Δs : List Context} {l : Loop} {ks : List Loop}

def Apart (s : State) (X : List BlockId) : Prop := ∃ R, s.graph.Opens (X ++ waiting s.loops ++ R)

namespace Apart

theorem perm (h : Apart s X) (hp : X.Perm Y) : Apart s Y := by
  obtain ⟨R, hR⟩ := h
  exact ⟨R, hR.perm ((hp.append_right _).append_right _)⟩

theorem left (h : Apart s (X ++ Z)) : Apart s X := by
  obtain ⟨R, hR⟩ := h
  exact ⟨Z ++ R, hR.perm (by grind)⟩

theorem right (h : Apart s (X ++ Z)) : Apart s Z := (h.perm List.perm_append_comm).left

theorem nodup (h : Apart s X) : (X ++ waiting s.loops).Nodup := by
  obtain ⟨R, hR⟩ := h
  exact (List.nodup_append.1 hR.1).1

theorem notMem (h : Apart s X) {q : BlockId} (hq : q ∈ waiting s.loops) : q ∉ X := fun hX =>
  (List.nodup_append.1 h.nodup).2.2 q hX q hq rfl

theorem push (h : Apart s X) {f : LoopFrame} (hwait : f.targets.waiting = []) :
    Apart { s with loops := f :: s.loops } X := by
  obtain ⟨R, hR⟩ := h
  exact ⟨R, by simpa [hwait] using hR⟩

theorem pop (h : Apart s X) {f : LoopFrame} {ls : List LoopFrame} (hloops : s.loops = f :: ls) :
    Apart { s with loops := ls } (X ++ f.targets.waiting) := by
  obtain ⟨R, hR⟩ := h
  rw [hloops, waiting_cons] at hR
  exact ⟨R, by simpa using hR⟩

theorem withoutLoops (h : Apart s X) : Apart { s with loops := [] } X := by
  obtain ⟨R, hR⟩ := h
  exact ⟨waiting s.loops ++ R, by simpa [waiting] using hR⟩

theorem apart_last (h : Apart s (X ++ [b])) : b ∉ X := fun hX =>
  (List.nodup_append.1 (List.nodup_append.1 h.nodup).1).2.2 b hX b (by simp) rfl

theorem after (h : Apart s (X ++ Z)) (hs : Shifts fs cs X s Y s') : Apart s' (Y ++ Z) := by
  obtain ⟨R, hR⟩ := h
  obtain ⟨E, N, hmoves, hwait, -⟩ := hs.moves
  have hopens := hmoves.opens (Z ++ waiting s.loops ++ R) (hR.perm (by grind))
  refine ⟨R, hopens.perm ?_⟩
  have hend : (Y ++ Z ++ waiting s'.loops ++ R).Perm (Y ++ Z ++ (waiting s.loops ++ N) ++ R) :=
    (hwait.append_left _).append_right _
  exact List.Perm.trans (by grind) hend.symm

theorem closed (h : Apart s [b]) (hs : Rebuilds [b] s Y s') (hb : b ∉ Y) :
    ¬s'.graph.IsOpen b := by
  obtain ⟨R, hR⟩ := h
  obtain ⟨t, hmoves, rfl⟩ := hs
  rw [List.append_assoc] at hR
  have hnew : b ∉ waiting s.loops ++ R := (List.nodup_cons.1 hR.1).1
  intro hopen
  rcases List.mem_append.1 (((hmoves.opens _ hR).2 b).1 hopen) with hY | hrest
  · exact hb hY
  · exact hnew hrest

end Apart

def Waits (s : State) (slot : Option ValueType) (base : Context) : List BlockId → List Context → Prop :=
  List.Forall₂ fun q Δ => s.graph.Fits (lowered? s) q Δ [] slot ∧ base.Le Δ

theorem Waits.mono (h : Waits s slot base qs Δs) (hs : Grows s s')
    (hkeep : ∀ q ∈ qs, ∀ B, s.graph.block? q = some B → s'.graph.block? q = some B) :
    Waits s' slot base qs Δs :=
  forall₂_imp_of_mem h fun q hq _ hfits => ⟨hfits.1.mono hs.lowered? (hkeep q hq), hfits.2⟩

theorem Waits.le (h : Waits s slot base qs Δs) : ∀ Δ ∈ Δs, base.Le Δ := by
  intro Δ hΔ
  obtain ⟨n, hn, rfl⟩ := List.mem_iff_getElem.1 hΔ
  exact (h.get (h.length_eq ▸ hn) hn).2

theorem Waits.notMem (h : Waits s slot base qs Δs) (hb : ¬s.graph.IsOpen b) : b ∉ qs := by
  intro hmem
  obtain ⟨n, hn, rfl⟩ := List.mem_iff_getElem.1 hmem
  obtain ⟨⟨B, hB, hopen, -⟩, -⟩ := h.get hn (h.length_eq ▸ hn)
  exact hb ⟨B, hB, hopen⟩

inductive LoopFits (s : State) (slot : Option ValueType) : LoopFrame → Loop → Prop
  | known {l : Loop} {test exit : BlockId} {Γ : Context}
      (htest : s.graph.Expects (lowered? s) test Γ [] slot) (hle : Γ.Le l.base)
      (hexit : s.graph.Expects (lowered? s) exit l.base [] slot) :
      LoopFits s slot ⟨l.label, .known test exit⟩ l
  | queued {l : Loop} {leaving repeating : List BlockId}
      (hleaving : Waits s slot l.base leaving l.leaving)
      (hrepeating : Waits s slot l.base repeating l.repeating) :
      LoopFits s slot ⟨l.label, .queued leaving repeating⟩ l

theorem LoopFits.label {f : LoopFrame} (h : LoopFits s slot f l) : f.label = l.label := by
  cases h <;> rfl

theorem LoopFits.mono {f : LoopFrame} (h : LoopFits s slot f l) (hs : Grows s s')
    (hkeep : ∀ q ∈ f.targets.waiting, ∀ B, s.graph.block? q = some B →
      s'.graph.block? q = some B) : LoopFits s' slot f l := by
  cases h with
  | known htest hle hexit =>
    exact .known (htest.mono hs.lowered? hs.graph) hle (hexit.mono hs.lowered? hs.graph)
  | queued hleaving hrepeating =>
    simp only [LoopTargets.waiting, List.mem_append] at hkeep
    exact .queued (hleaving.mono hs fun q hq => hkeep q (.inl hq))
      (hrepeating.mono hs fun q hq => hkeep q (.inr hq))

abbrev LoopsFit (s : State) (slot : Option ValueType) : List LoopFrame → List Loop → Prop :=
  List.Forall₂ (LoopFits s slot)

theorem LoopsFit.mono {ls : List LoopFrame} (h : LoopsFit s slot ls ks) (hs : Grows s s')
    (hkeep : ∀ q ∈ waiting ls, ∀ B, s.graph.block? q = some B → s'.graph.block? q = some B) :
    LoopsFit s' slot ls ks :=
  forall₂_imp_of_mem h fun f hf _ hfits =>
    hfits.mono hs fun q hq => hkeep q (List.mem_flatMap.2 ⟨f, hf, hq⟩)

theorem LoopsFit.rebuild (h : LoopsFit s slot s.loops ks) (hX : Apart s X) (hs : Rebuilds X s Y s') :
    LoopsFit s' slot s'.loops ks := by
  rw [hs.loops]
  exact LoopsFit.mono h hs.grows fun q hq _ => hs.keeps (hX.notMem hq)

theorem Grows.withLoops (s : State) (ls : List LoopFrame) : Grows s { s with loops := ls } :=
  ⟨⟨.refl _, fun _ _ h => h, fun _ _ h => h, fun _ _ h => h⟩, fun _ _ h => h, fun h => h⟩

inductive FrameFits (s : State) :
    Option ValueType → Option Frame → Option SourceType → Prop
  | program : FrameFits s none none none
  | function {l : LayoutId} {name : String} {vt : ValueType} {t : SourceType}
      (ht : lowered? s t = some vt) (hl : s.returnLayouts.get? vt = some l) :
      FrameFits s (some (.object l)) (some ⟨name, vt⟩) (some t)

theorem FrameFits.mono {frame : Option Frame} {result : Option SourceType}
    (h : FrameFits s slot frame result) (hs : Grows s s') : FrameFits s' slot frame result := by
  cases h with
  | program => exact .program
  | function ht hl => exact .function (hs.lowered? _ _ ht) (hs.returns _ _ hl)

structure Around where
  declared : Declared
  slot : Option ValueType
  frame : Option Frame
  result : Option SourceType

structure Standing (A : Around) (ks : List Loop) (s : State) (b : BlockId) (Γ : Context) : Prop where
  knows : Knows A.declared s
  registered : s.Registered
  heap : s.graph.HeapTyped
  frame : FrameFits s A.slot A.frame A.result
  fits : s.graph.Fits (lowered? s) b Γ [] A.slot
  apart : Apart s [b]
  loops : LoopsFit s A.slot s.loops ks
  bases : ∀ k ∈ ks, k.base.Le Γ

inductive Continues (s : State) (slot : Option ValueType) (Γ : Context) :
    Option BlockId → Option Context → Prop
  | past {c : BlockId} {Γ' : Context} (hfits : s.graph.Fits (lowered? s) c Γ' [] slot)
      (hle : Γ.Le Γ') : Continues s slot Γ (some c) (some Γ')
  | never : Continues s slot Γ none none

theorem Continues.waits {o : Option BlockId} {Δ : Option Context} (h : Continues s slot Γ o Δ) :
    Waits s slot Γ o.toList Δ.toList := by
  cases h with
  | past hfits hle => exact .cons ⟨hfits, hle⟩ .nil
  | never => exact .nil

structure Leaves (slot : Option ValueType) (ks : List Loop) (Γ : Context) (s : State)
    (o : Option BlockId) (Γ' : Option Context) (ks' : List Loop) : Prop where
  heap : s.graph.HeapTyped
  loops : LoopsFit s slot s.loops ks'
  bases : ks'.map (·.base) = ks.map (·.base)
  continues : Continues s slot Γ o Γ'

namespace Leaves

variable {ks ks' ks'' : List Loop} {c : BlockId} {o : Option BlockId} {Δ : Option Context}

theorem widen (h : Leaves slot ks' Γ' s o Δ ks'') (hbases : ks'.map (·.base) = ks.map (·.base))
    (hle : Γ.Le Γ') : Leaves slot ks Γ s o Δ ks'' := by
  obtain ⟨hheap, hloops, hbases', hcontinues⟩ := h
  refine ⟨hheap, hloops, hbases'.trans hbases, ?_⟩
  cases hcontinues with
  | past hfits hle' => exact .past hfits (hle.trans hle')
  | never => exact .never

theorem trans (h : Leaves slot ks Γ s (some c) (some Γ') ks') (k : Leaves slot ks' Γ' s' o Δ ks'') :
    Leaves slot ks Γ s' o Δ ks'' := by
  obtain ⟨-, -, hbases, ⟨-, hle⟩⟩ := h
  exact k.widen hbases hle

theorem settle (h : Leaves slot ks Γ s none none ks') (hs : Rebuilds [] s [] s') :
    Leaves slot ks Γ s' none none ks' := by
  refine ⟨(Builds.of_settled hs).heap h.heap, ?_, h.bases, .never⟩
  rw [hs.loops]
  exact LoopsFit.mono h.loops hs.grows fun _ _ _ => hs.keeps (by simp)

end Leaves

namespace Standing

variable {A : Around} {ks ks' : List Loop} {c : BlockId}

theorem ready (h : Standing A ks s b Γ) : Ready A.declared s.loops A.slot s b Γ [] :=
  ⟨h.knows, rfl, h.fits⟩

theorem move (h : Standing A ks s b Γ) (hs : Rebuilds [b] s (c :: Z) s')
    (hafter : After A.declared s.loops A.slot s s' c Γ' []) (hle : Γ.Le Γ') :
    Standing A ks s' c Γ' where
  knows := hafter.ready.knows
  registered := hs.shifts.registered h.registered
  heap := hafter.grows.heap h.heap
  frame := h.frame.mono hs.grows
  fits := hafter.ready.fits
  apart := Apart.left (X := [c]) (Apart.after (Z := []) h.apart hs.shifts).left
  loops := h.loops.rebuild h.apart hs
  bases k hk := (h.bases k hk).trans hle

theorem leaves (h : Standing A ks s b Γ) (hs : Rebuilds [b] s [c] s')
    (hafter : After A.declared s.loops A.slot s s' c Γ' []) (hle : Γ.Le Γ') :
    Leaves A.slot ks Γ s' (some c) (some Γ') ks :=
  ⟨hafter.grows.heap h.heap, h.loops.rebuild h.apart hs, rfl, .past hafter.ready.fits hle⟩

theorem next (h : Standing A ks s b Γ) (hs : Shifts fs cs [b] s [c] s') (hnew : Unknown fs cs s)
    (hleaves : Leaves A.slot ks Γ s' (some c) (some Γ') ks') : Standing A ks' s' c Γ' := by
  obtain ⟨hheap, hloops, hbases, ⟨hfits, hle⟩⟩ := hleaves
  exact
  { knows := h.knows.mono (hs.grows hnew)
    registered := hs.registered h.registered
    heap := hheap
    frame := h.frame.mono (hs.grows hnew)
    fits := hfits
    apart := Apart.after (Z := []) h.apart hs
    loops := hloops
    bases := fun k hk => by
      obtain ⟨k', hk', hbase⟩ := List.mem_map.1 (hbases ▸ List.mem_map_of_mem hk)
      exact hbase ▸ (h.bases k' hk').trans hle }

theorem beside (h : Standing A ks s b Γ) (hX : Apart s (X ++ [b])) (hs : Shifts fs cs X s Y s')
    (hnew : Unknown fs cs s) (hheap : s'.graph.HeapTyped) (hloops : LoopsFit s' A.slot s'.loops ks')
    (hbases : ks'.map (·.base) = ks.map (·.base)) : Standing A ks' s' b Γ where
  knows := h.knows.mono (hs.grows hnew)
  registered := hs.registered h.registered
  heap := hheap
  frame := h.frame.mono (hs.grows hnew)
  fits := h.fits.mono (hs.grows hnew).lowered? fun _ => hs.keeps hX.apart_last
  apart := (hX.after hs).right
  loops := hloops
  bases k hk := by
    obtain ⟨k', hk', hbase⟩ := List.mem_map.1 (hbases ▸ List.mem_map_of_mem hk)
    exact hbase ▸ h.bases k' hk'

theorem pushLoop (h : Standing A ks s b Γ) {f : LoopFrame} {k : Loop} (hf : LoopFits s A.slot f k)
    (hwait : f.targets.waiting = []) (hbase : k.base.Le Γ) :
    Standing A (k :: ks) { s with loops := f :: s.loops } b Γ := by
  have hgrow := Grows.withLoops s (f :: s.loops)
  exact
  { knows := h.knows.mono hgrow
    registered := ⟨h.registered.entry, h.registered.entry_inj, h.registered.layout,
      h.registered.layout_inj⟩
    heap := h.heap
    frame := h.frame.mono hgrow
    fits := h.fits.mono hgrow.lowered? fun _ hB => hB
    apart := h.apart.push hwait
    loops := LoopsFit.mono (.cons hf h.loops) hgrow fun _ _ _ hB => hB
    bases := by
      rintro k' (_ | ⟨_, hk'⟩)
      · exact hbase
      · exact h.bases k' hk' }

end Standing

theorem Loop.enqueue_base (kind : LoopJump) (Γ : Context) (l : Loop) :
    (l.enqueue kind Γ).base = l.base := by
  cases kind <;> rfl

theorem Loop.enqueue_label (kind : LoopJump) (Γ : Context) (l : Loop) :
    (l.enqueue kind Γ).label = l.label := by
  cases kind <;> rfl

theorem LoopFits.enqueue {label : Option String}
    (h : LoopFits s slot ⟨label, .queued leaving repeating⟩ l)
    (hb : s.graph.Fits (lowered? s) b Γ [] slot) (hle : l.base.Le Γ) (kind : LoopJump) :
    LoopFits s slot (LoopFrame.enqueue ⟨label, .queued leaving repeating⟩ kind b)
      (l.enqueue kind Γ) := by
  cases h with
  | queued hleaving hrepeating =>
    have hlast : Waits s slot l.base [b] [Γ] := .cons ⟨hb, hle⟩ .nil
    cases kind with
    | leave => exact .queued (l := l.enqueue .leave Γ) (List.rel_append hleaving hlast) hrepeating
    | again => exact .queued (l := l.enqueue .again Γ) hleaving (List.rel_append hrepeating hlast)

theorem LoopFits.noted {label : Option String} {test exit : BlockId}
    (h : LoopFits s slot ⟨label, .known test exit⟩ l) (kind : LoopJump) (Γ : Context) :
    LoopFits s slot ⟨label, .known test exit⟩ (l.enqueue kind Γ) := by
  cases h with
  | known htest hle hexit =>
    rw [← Loop.enqueue_label kind Γ]
    exact .known htest (by rwa [Loop.enqueue_base]) (by rwa [Loop.enqueue_base])

theorem succeeds_lowerJump {A : Around} {ks' : List Loop} {kind : LoopJump} {label : Option String}
    (h : Standing A ks s b Γ) (hjump : checkJump kind label Γ ks = some ks') :
    Succeeds (lowerJump b kind label) s fun _ s' => Leaves A.slot ks Γ s' none none ks' := by
  obtain ⟨inner, l, outer, rfl, hlabel, hinner, rfl⟩ := checkJump_eq_some hjump
  have hbases : (inner ++ l.enqueue kind Γ :: outer).map (·.base) =
      (inner ++ l :: outer).map (·.base) := by
    simp [Loop.enqueue_base]
  have hbase : l.base.Le Γ := h.bases l (by simp)
  obtain ⟨finner, rest, hloops, hfits, hrest⟩ := forall₂_append_right h.loops
  obtain ⟨f, fouter, hf, houter, rfl⟩ := List.forall₂_cons_right_iff.1 hrest
  have hmatch : f.matches label = true := by
    rw [LoopFrame.matches, hf.label]
    exact hlabel
  have hfirst : ∀ g ∈ finner, g.matches label = false := by
    intro g hg
    obtain ⟨n, hn, rfl⟩ := List.mem_iff_getElem.1 hg
    have hn' : n < inner.length := hfits.length_eq ▸ hn
    have hg := (hfits.get hn hn').label
    simp only [List.get_eq_getElem] at hg
    rw [LoopFrame.matches, hg]
    exact hinner _ (List.getElem_mem hn')
  cases hf with
  | @known _ test exit Γ₀ htest hle hexit =>
    obtain ⟨Δ, htarget, hle'⟩ : ∃ Δ, s.graph.Expects (lowered? s) (LoopJump.target test exit kind) Δ []
        A.slot ∧ Δ.Le Γ := by
      cases kind with
      | leave => exact ⟨l.base, hexit, hbase⟩
      | again => exact ⟨Γ₀, htest, hle.trans hbase⟩
    obtain ⟨t, hrun, -⟩ := succeeds_jump h.fits htarget hle'
    refine ⟨(), { s with toBuilder := t },
      runs_lowerJump.2 ⟨finner, _, fouter, hloops, hmatch, hfirst, t, hrun, rfl⟩,
      keepsHeap_jump hrun h.heap, ?_, hbases, .never⟩
    have hmoved := h.loops.rebuild h.apart (.of_moves (moves_jump hrun).1)
    dsimp only at hmoved ⊢
    rw [hloops] at hmoved ⊢
    obtain ⟨hfits', hrest'⟩ := (forall₂_append hfits.length_eq).1 hmoved
    obtain ⟨hf', houter'⟩ := List.forall₂_cons.1 hrest'
    exact List.rel_append hfits' (.cons (hf'.noted kind Γ) houter')
  | @queued _ leaving repeating hleaving hrepeating =>
    refine ⟨(), _, runs_lowerJump.2 ⟨finner, _, fouter, hloops, hmatch, hfirst, rfl⟩, h.heap, ?_,
      hbases, .never⟩
    have hgrow := Grows.withLoops s (finner ++ LoopFrame.enqueue ⟨l.label, .queued leaving repeating⟩
      kind b :: fouter)
    have hend : LoopsFit s A.slot (finner ++ LoopFrame.enqueue ⟨l.label, .queued leaving repeating⟩
        kind b :: fouter) (inner ++ l.enqueue kind Γ :: outer) :=
      List.rel_append hfits (.cons ((LoopFits.queued hleaving hrepeating).enqueue h.fits hbase kind)
        houter)
    exact hend.mono hgrow fun _ _ _ h => h

theorem succeeds_exitLoop {D : Declared} (hknows : Knows D s)
    (hcontext : s.graph.Holds (lowered? s) b Γ [] slot) (hnodup : leaving.Nodup)
    (hleaving : Waits s slot Γ leaving Δs) :
    Succeeds (liftM (exitLoop b leaving) : LowerM (Option BlockId)) s fun o s' =>
      Builds s s' ∧ Continues s' slot Γ o (exitContext Γ Δs) := by
  have hle := hleaving.le
  cases hleaving with
  | nil => exact Succeeds.lift_pure ⟨.refl s, .never⟩
  | cons hq hqs =>
    refine Succeeds.lift_bind ((hknows.converge rfl hcontext hnodup (.cons hq hqs) (by simp)).bind ?_)
    rintro c s₁ - ⟨h₁, -⟩
    exact Succeeds.lift_pure ⟨h₁.grows, .past h₁.ready.fits (Context.le_meet hle)⟩

theorem succeeds_report (d : Diagnostic) :
    Succeeds (liftM (report d) : LowerM Unit) s fun _ s' => Rebuilds [] s [] s' :=
  ⟨(), _, Runs.lift_build_iff.2 ⟨_, runs_report.2 rfl, rfl⟩, .of_moves (.report _ _)⟩

theorem succeeds_closeLoop {D : Declared} {inside : BlockId} {condition : Expr} {Θs : List Context}
    {Γ' : Option Context} (hknows : Knows D s) (hcontext : s.graph.Holds (lowered? s) b Γ [] slot)
    (hclosed : ¬s.graph.IsOpen b) (hinside : s.graph.Expects (lowered? s) inside Γ [] slot)
    (hnodup : (leaving ++ repeating).Nodup) (hleaving : Waits s slot Γ leaving Δs)
    (hrepeating : Waits s slot Γ repeating Θs) (hend : checkLoopEnd D Γ condition Δs Θs = some Γ') :
    Succeeds (closeLoop b inside condition leaving repeating) s fun o s' =>
      Builds s s' ∧ Continues s' slot Γ o Γ' := by
  obtain ⟨hnodup, hnodup', hdisjoint⟩ := List.nodup_append.1 hnodup
  have hempty : repeating.isEmpty = Θs.isEmpty := by
    cases hrepeating <;> rfl
  rw [checkLoopEnd, ← hempty] at hend
  rw [closeLoop]
  by_cases hrep : repeating.isEmpty = true
  · rw [if_pos hrep]
    simp only [hrep, Bool.true_or, if_true, Option.some.injEq] at hend
    subst hend
    have hexit {s' : State} (hs : Rebuilds [] s [] s') :
        Succeeds (liftM (exitLoop b leaving) : LowerM (Option BlockId)) s' fun o s'' =>
          Builds s s'' ∧ Continues s'' slot Γ o (exitContext Γ Δs) :=
      (succeeds_exitLoop (hknows.mono hs.grows)
        (hcontext.mono hs.grows.lowered? fun _ => hs.keeps (by simp)) hnodup
        (hleaving.mono hs.grows fun _ _ _ => hs.keeps (by simp))).imp
        fun _ _ _ hend => ⟨(Builds.of_settled hs).trans hend.1, hend.2⟩
    split
    · exact (succeeds_report _).bind fun _ _ _ hs => hexit hs
    · exact hexit (.refl _ _)
  · rw [if_neg hrep]
    have hne : repeating ≠ [] := by simpa using hrep
    -- the blocks that repeat the loop come together
    have hmeet := (hknows.converge rfl hcontext hnodup' hrepeating hne)
    have hstart := Context.le_meet hrepeating.le
    have hb := hrepeating.notMem hclosed
    have hkept : ∀ q ∈ leaving, q ∉ repeating := fun q hq hq' => hdisjoint q hq q hq' rfl
    by_cases htrue : condition.isTrue = true
    · rw [if_pos htrue]
      simp only [htrue, Bool.or_true, if_true, Option.some.injEq] at hend
      subst hend
      refine hmeet.bind ?_
      rintro c s₁ hrun ⟨h₁, -⟩
      refine (h₁.ready.jump (hinside.mono h₁.grows.lowered? h₁.grows.graph) hstart).bind ?_
      rintro _ s₂ - ⟨hjump, h₂⟩
      have hs : Rebuilds repeating s [] s₂ := (Rebuilds.of_lift hrun moves_converge).trans hjump
      refine (succeeds_exitLoop (hknows.mono hs.grows)
        (hcontext.mono hs.grows.lowered? fun _ => hs.keeps hb) hnodup
        (hleaving.mono hs.grows fun q hq _ => hs.keeps (hkept q hq))).imp ?_
      rintro o s₃ - ⟨h₃, hend⟩
      exact ⟨(h₁.grows.trans h₂).trans h₃, hend⟩
    · rw [if_neg htrue]
      simp only [hrep, htrue, Bool.or_self, Bool.false_eq_true, if_false] at hend
      simp only [bind_eq_some, checkCondition_eq_some] at hend
      obtain ⟨Δ, ⟨hbool, hcond⟩, hend⟩ := hend
      obtain rfl := Option.some.inj hend
      refine hmeet.bind ?_
      rintro c s₁ hrun ⟨h₁, -⟩
      refine (succeeds_lowerExpr condition h₁.ready hcond).bind ?_
      rintro d s₂ htest ⟨h₂, hyields⟩
      rw [hbool] at hyields
      obtain ⟨_, -, hlast⟩ := hyields rfl
      refine (Ready.lastRegister hlast).bind ?_
      rintro r s₂ - ⟨rfl, hr⟩
      have hs : Rebuilds repeating s [d] s₂ :=
        (Rebuilds.of_lift hrun moves_converge).trans (leads_lowerExpr c condition htest)
      have hleaving' := hleaving.mono hs.grows fun q hq _ => hs.keeps (hkept q hq)
      have hnew : d ∉ leaving := by
        intro hd
        obtain ⟨n, hn, rfl⟩ := List.mem_iff_getElem.1 hd
        obtain ⟨⟨B, hB, -⟩, -⟩ := hleaving.get hn (hleaving.length_eq ▸ hn)
        exact hs.apart (hkept _ (List.getElem_mem hn)) hB (by simp)
      have hle : Γ.Le Δ := hstart.trans (checkExpr_le condition hcond)
      have hcontext' := hcontext.mono hs.grows.lowered? fun _ => hs.keeps hb
      refine (h₂.ready.convergeBranch hr hcontext' (List.nodup_cons.2 ⟨hnew, hnodup⟩) hle
        hleaving').bind ?_
      rintro ⟨again, exit⟩ s₃ - ⟨hne, h₃, h₃'⟩
      have hgrow := (h₁.grows.trans h₂.grows).trans h₃.grows
      refine (h₃.ready.jump (hinside.mono hgrow.lowered? hgrow.graph)
        (Context.le_meet (by simpa using hle))).bind ?_
      rintro _ s₄ - ⟨hjump, hbuild⟩
      have h₄ := h₃'.ready.grow hbuild hjump.loops fun _ => hjump.keeps (by simpa using hne.symm)
      exact .pure ⟨hgrow.trans hbuild,
        .past h₄.ready.fits (Context.le_meet (by simpa using ⟨hle, hleaving.le⟩))⟩

end BlockGraph.Lowering
