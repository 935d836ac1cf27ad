import BlockGraph.Proofs.Linearity.Statements
import BlockGraph.Proofs.Lowering.Forms
import BlockGraph.Proofs.Simulation.Expressions
import BlockGraph.Proofs.Totality.Declarations

namespace BlockGraph

open Interpretation

variable {I : Interpretation} {L : Lowered}

theorem Interpretation.Variables.within_self (vs : I.Variables) : vs.within vs = vs := by
  funext n
  cases h : vs n <;> simp [within, h]

namespace Lowering

open Builder

variable {u : Unit} {t t₀ : Builder}

section Exits

variable (L) (g : Graph) (w : View I) (before : Contexts I) (σ : I.State) (y : (I.machine L).Point)

def LoopTargets.Catches (kind : LoopJump) : LoopTargets → Prop
  | .known test exit => ∃ T cs, L.graph.block? (LoopJump.target test exit kind) = some T ∧
      T.signature.Takes w ∧ before <+: cs ∧
      y = .entry (LoopJump.target test exit kind) (T.signature.pass w) ⟨σ, cs⟩
  | .queued leaving repeating => ∃ d ∈ (match kind with
      | .leave => leaving
      | .again => repeating), g.Yields d w before σ none y

def Catch (j : Jump) : List LoopFrame → Prop
  | [] => False
  | f :: ls => if j.means f.label then f.targets.Catches L g w before σ y j.kind else Catch j ls

def Resumes (slot : Option Nat) (v : Option I.Value) : Prop :=
  ∃ a x c cs, slot = some a ∧ before[a]?.bind (· 0) = some x ∧ (I.machine L).target x = some c ∧
    before <+: cs ∧ y = .entry c (.context a :: v.toList.map .plain) ⟨σ, cs⟩

def HasCaller (slot : Option Nat) : Prop :=
  ∀ a, slot = some a → ∃ x c, before[a]?.bind (· 0) = some x ∧ (I.machine L).target x = some c

end Exits

variable (L) in
def Exits (s : State) (o : Option BlockId) (w : View I) (before : Contexts I) (exit : I.Exit)
    (vs : I.Variables) (σ : I.State) (y : (I.machine L).Point) : Prop :=
  w.vars.Keeps vs ∧ match exit with
  | .normal => ∃ c, o = some c ∧ s.graph.Yields c { w with vars := vs } before σ none y
  | .jump j => Catch L s.graph { w with vars := vs } before σ y j s.loops
  | .ret v => Resumes L before σ y w.slot v

variable (L) in
def ExitsScope (s : State) (o : Option BlockId) (w : View I) (before : Contexts I) (exit : I.Exit)
    (vs : I.Variables) (σ : I.State) (y : (I.machine L).Point) : Prop :=
  ∃ vs', Exits L s o w before exit vs' σ y ∧ vs = match exit with
    | .normal => w.vars.within vs'
    | _ => vs'

variable (L) in
def Performs (n : Nat) (s : State) (b : BlockId) (x : I.Eval I.Exit)
    (Q : View I → Contexts I → I.Exit → I.Variables → I.State → (I.machine L).Point → Prop) : Prop :=
  ∀ ⦃w : View I⦄ ⦃before : Contexts I⦄ ⦃σ : I.State⦄ ⦃y : (I.machine L).Point⦄,
    HasCaller L before w.slot → s.graph.Yields b w before σ none y →
    Simulates L (n + 1) y (x w.vars σ) (Q w before)

variable {fs : List FunctionId} {cs : List ClassId} {X Y : List BlockId} {b c : BlockId}
  {s s' s₁ : State} {o : Option BlockId} {w : View I} {before : Contexts I} {σ : I.State}
  {y : (I.machine L).Point} {n : Nat} {exit : I.Exit} {vs vs₁ : I.Variables} {x : I.Eval I.Exit}

theorem Catch.mono {g g' : Graph} {j : Jump} {ls ls' : List LoopFrame}
    (h : Catch L g w before σ y j ls) (hls : LoopsGrow ls ls')
    (hkeep : ∀ q ∈ waiting ls, ∀ B, g.block? q = some B → g'.block? q = some B) :
    Catch L g' w before σ y j ls' := by
  induction hls with
  | nil => exact h
  | @cons f f' ls ls' hf hls ih =>
    rw [Catch] at h ⊢
    rw [hf.label]
    by_cases hj : j.means f.label = true
    · rw [if_pos hj] at h ⊢
      obtain ⟨-, htargets⟩ := hf
      revert h hkeep htargets
      rw [waiting_cons]
      generalize f.targets = T
      generalize f'.targets = T'
      intro h hkeep htargets
      cases htargets with
      | known test exit => exact h
      | queued leaving repeating more again =>
        obtain ⟨d, hd, hy⟩ := h
        refine ⟨d, ?_, hy.kept (hkeep d ?_)⟩ <;> cases hkind : j.kind <;>
          simp_all [LoopTargets.waiting]
    · rw [if_neg hj] at h ⊢
      exact ih h fun q hq => hkeep q (by simp [hq])

theorem Exits.shift (h : Exits L s o w before exit vs σ y) (hexit : exit ≠ .normal)
    (hX : Apart s X) (hs : Shifts fs cs X s Y s') (o' : Option BlockId) :
    Exits L s' o' w before exit vs σ y := by
  refine ⟨h.1, ?_⟩
  cases exit with
  | normal => exact absurd rfl hexit
  | jump j => exact Catch.mono h.2 hs.loops fun q hq _ => hs.keeps (hX.notMem hq)
  | ret v => exact h.2

theorem Exits.inScope (h : Exits L s (some c) w before .normal w.vars σ y) :
    ExitsScope L s (some c) w before .normal w.vars σ y :=
  ⟨w.vars, h, (Variables.within_self _).symm⟩

theorem settles_clauseType {type : Option ValueType} {k : Clause} :
    Settles (clauseType type k) := by
  unfold clauseType
  split
  · exact settles_pure
  · exact settles_lowerType _
  · intro s a s' h
    simp at h

section Clauses

variable {q : Program} {call : FunctionDecl → List I.Value → I.Eval (Option I.Value)}
  {clauses : List Clause}

theorem mirrors_declare {type : Option ValueType} {k : Clause} {t : ValueType} {t₂ : Builder}
    {u : Unit} {regs : List (Word I)} {name : String} {r : Option Register} {v : Option I.Value}
    (htype : Runs (clauseType type k) s t s₁) (hdefine : Runs (define b name ⟨t, r⟩) s₁.toBuilder u t₂)
    (hw : s.graph.Mirrors b regs w)
    (hr : ∀ r', r = some r' → ∃ a, v = some a ∧ regs[r'.index]? = some (.plain a)) :
    t₂.graph.Mirrors b regs { w with vars := Function.update w.vars name (some v) } :=
  mirrors_define hdefine (hw.kept fun _ => (settles_clauseType htype).keeps (by simp)) hr

theorem simulates_clauses {type : Option ValueType}
    (hclauses : ∀ k ∈ clauses, ∀ e ∈ k.value, Realizes L n q call e ∧ e.type.isVoid = false)
    (htype : ∀ t, type = some t → s.graph.Proper t) (hs : s.Tidy)
    (h : Runs (lowerClauses type b clauses) s c s') (hL : Links L s')
    (hy : s.graph.Yields b w before σ none y) :
    Simulates L (n + 1) y (execClauses q call clauses w.vars σ) fun _ vs σ' y' =>
      w.vars.Keeps vs ∧ s'.graph.Yields c { w with vars := vs } before σ' none y' := by
  induction clauses generalizing s b w σ y with
  | nil =>
    obtain ⟨rfl, rfl⟩ := Runs.pure_iff.1 h
    exact ⟨0, y, .refl y, .refl _, hy⟩
  | cons k rest ih =>
    obtain ⟨name, value⟩ := k
    have hrest (e : Option Expr) {b : BlockId} {r : Option Register} {s₁ : State} {w : View I}
        {σ : I.State} {regs : List (Word I)} {cs : Contexts I} {v : Option I.Value} (hs₁ : s₁.Tidy)
        (htype₁ : ∀ t, type = some t → s₁.graph.Proper t)
        (htyped : ∀ r', r = some r' → s₁.graph.Typed b r')
        (hrun : Runs (do
          let t ← clauseType type ⟨name, e⟩
          tell (.symbolDefined name t b)
          define b name ⟨t, r⟩
          lowerClauses type b rest) s₁ c s')
        (hw : s₁.graph.Mirrors b regs w) (hcs : before <+: cs)
        (hr : ∀ r', r = some r' → ∃ a, v = some a ∧ regs[r'.index]? = some (.plain a)) :
        Simulates L (n + 1) (.inside b regs ⟨σ, cs⟩)
          ((do
            declareVar name v
            execClauses q call rest : I.Eval Unit) w.vars σ) fun _ vs σ' y' =>
          w.vars.Keeps vs ∧ s'.graph.Yields c { w with vars := vs } before σ' none y' := by
      simp only [Runs.bind_iff, Runs.lift_build_iff, runs_tell] at hrun
      obtain ⟨t, s₂, hclause, _, _, ⟨_, rfl, rfl⟩, _, _, ⟨t₃, hdefine, rfl⟩, hrun⟩ := hrun
      obtain ⟨hs₂, hpres, hproper⟩ := (tidies_clauseType htype₁ hs₁).holds hclause
      have htidies : Builder.Tidies (define b name ⟨t, r⟩) s₂.toBuilder fun _ _ => True :=
        tidies_define hproper fun r' hr' => (htyped r' hr').mono hpres
      obtain ⟨hs₃, hpres', -⟩ := (tidies_lift htidies hs₂).holds
        (Runs.lift_build_iff.2 ⟨t₃, hdefine, rfl⟩)
      have hw₃ := mirrors_declare hclause hdefine hw hr
      refine (ih (fun k hk => hclauses k (by simp [hk]))
        (fun t ht => ((htype₁ t ht).mono hpres).mono hpres') hs₃ hrun
        ⟨regs, cs, rfl, hw₃, hcs, by simp⟩).imp ?_
      rintro _ vs σ' y' ⟨hvs, hy'⟩
      exact ⟨(Variables.Keeps.update _ _ _).trans hvs, hy'⟩
    rw [lowerClauses] at h
    cases value with
    | none =>
      obtain ⟨_, _, hpair, hrun⟩ := Runs.bind_iff.1 h
      obtain ⟨rfl, rfl⟩ := Runs.pure_iff.1 hpair
      obtain ⟨regs, cs, rfl, hw, hcs, -⟩ := hy
      exact hrest none hs htype (by simp) hrun hw hcs (by simp)
    | some e =>
      obtain ⟨he, hv⟩ := hclauses ⟨name, some e⟩ (by simp) e rfl
      obtain ⟨d, s₁, he₁, h⟩ := Runs.bind_iff.1 h
      obtain ⟨r, _, hregister, h⟩ := Runs.bind_iff.1 h
      obtain ⟨t₂, hlast, rfl⟩ := Runs.lift_build_iff.1 hregister
      obtain ⟨_, _, hpair, hrun⟩ := Runs.bind_iff.1 h
      obtain ⟨rfl, rfl⟩ := Runs.pure_iff.1 hpair
      obtain ⟨hs₁, hpres, hopen⟩ := (tidies_lowerExpr b e hs).holds he₁
      have htyped := ((tidies_lastRegister hopen) hs₁.builder).holds hlast
      obtain ⟨-, -, -, rfl⟩ := runs_lastRegister.1 hlast
      have hL₁ : Links L s₁ := by
        simp only [Runs.bind_iff, Runs.lift_build_iff, runs_tell] at hrun
        obtain ⟨t, s₂, hclause, _, _, ⟨_, rfl, rfl⟩, _, _, ⟨t₃, hdefine, rfl⟩, hrun⟩ := hrun
        have hL₂ := (hL.back (leads_lowerClauses hrun).grows).back (grows_lift stays_define hdefine)
        exact hL₂.back (settles_clauseType hclause).grows
      refine Simulates.bind (he he₁ hs hL₁ hy) ?_
      intro v vs σ₁ y₁ hgives
      obtain ⟨regs, cs, rfl, hw, hcs, hlast'⟩ := hgives.value hv
      have hr := (reads_lastRegister hlast hw).2.trans (hlast' v rfl)
      refine (hrest (some e) (v := some v) hs₁ (fun t ht => (htype t ht).mono hpres) ?_ hrun hw hcs ?_).imp ?_
      · rintro _ ⟨⟩
        exact htyped.2.2.2
      · rintro _ ⟨⟩
        exact ⟨v, rfl, hr⟩
      · rintro _ vs' σ₂ y₂ ⟨hvs, hy₂⟩
        exact ⟨hgives.1.keeps.trans hvs, hy₂⟩

theorem performs_define {type : Option SourceType} {lowered : Option ValueType}
    (hclauses : ∀ k ∈ clauses, ∀ e ∈ k.value, Realizes L n q call e ∧ e.type.isVoid = false)
    (htype : Runs (type.mapM lowerType) s lowered s₁)
    (h : Runs (lowerClauses lowered b clauses) s₁ c s') (hs : s.Tidy) (hL : Links L s') :
    Performs L n s b (do
      execClauses q call clauses
      return .normal) (Exits L s' (some c)) := by
  intro w before σ y _ hy
  obtain ⟨hs₁, -, hproper⟩ := (tidies_optionType hs).holds htype
  have hkeep : ∀ B, s.graph.block? b = some B → s₁.graph.block? b = some B := by
    intro B hB
    cases type with
    | none =>
      obtain ⟨-, rfl⟩ := Runs.pure_iff.1 htype
      exact hB
    | some type =>
      obtain ⟨_, htype, -⟩ := Runs.map_iff.1 htype
      exact (settles_lowerType type htype).keeps (by simp) hB
  refine Simulates.bind (simulates_clauses hclauses hproper hs₁ h hL (hy.kept hkeep)) ?_
  rintro _ vs σ₁ y₁ ⟨hvs, hy₁⟩
  exact .done ⟨hvs, c, rfl, hy₁⟩

end Clauses

theorem performs_jump {kind : LoopJump} {label : Option String}
    (h : Runs (lowerJump b kind label) s u s') (hL : Links L s') :
    Performs (I := I) L n s b (pure (.jump ⟨kind, label⟩)) (Exits L s' none) := by
  intro w before σ y _ hy
  obtain ⟨inner, f, outer, hloops, hmatch, hinner, h⟩ := runs_lowerJump.1 h
  have hcatch {g : Graph} {y : (I.machine L).Point} (f' : LoopFrame) (hf : f'.label = f.label)
      (hf' : f'.targets.Catches L g w before σ y kind) :
      Catch L g w before σ y ⟨kind, label⟩ (inner ++ f' :: outer) := by
    clear hloops h
    induction inner with
    | nil =>
      have hmeans : Jump.means ⟨kind, label⟩ f'.label = true := hf ▸ hmatch
      rw [List.nil_append, Catch, if_pos hmeans]
      exact hf'
    | cons k inner ih =>
      have hmeans : Jump.means ⟨kind, label⟩ k.label = false := hinner k (by simp)
      rw [List.cons_append, Catch, hmeans]
      exact ih fun k' hk' => hinner k' (by simp [hk'])
  split at h
  case h_1 test exit htargets =>
    obtain ⟨t, hjump, rfl⟩ := h
    obtain ⟨regs, cs, rfl, hw, hcs, -⟩ := hy
    obtain ⟨T, hT, htakes, hgoes⟩ := goes_jump hjump hL.graph hw ⟨σ, cs⟩
    obtain ⟨T', hT', hext⟩ := ((moves_jump hjump).1.graph_extends.trans hL.graph) _ T hT
    refine ⟨1, _, hgoes, .refl _, ?_⟩
    rw [← hext.signature] at htakes ⊢
    dsimp only
    rw [hloops]
    refine hcatch f rfl ?_
    rw [htargets]
    exact ⟨T', cs, hT', htakes, hcs, rfl⟩
  case h_2 leaving repeating htargets =>
    subst h
    refine ⟨0, y, .refl y, .refl _, hcatch _ rfl ?_⟩
    rw [LoopFrame.enqueue, htargets]
    cases kind with
    | leave => exact ⟨b, by simp, hy⟩
    | again => exact ⟨b, by simp, hy⟩

theorem goes_goto {e : Edge} {s s' : Builder} {regs : List (Word I)} (h : Runs (goto b e) s u s')
    (hL : s'.graph.Extends L.graph) (hb : s.graph.Mirrors b regs w) {x : Word I}
    {args : List (Word I)} (hx : regs[e.target.index]? = some x)
    (hargs : Reads regs e.arguments args) (hc : (I.machine L).target x = some c) (m : Memory I) :
    L.graph.Goes (M := I.machine L) 1 (.inside b regs m) (.entry c args m) := by
  obtain ⟨B, hB, hw⟩ := hb
  obtain ⟨B', hB', hopen, -, rfl⟩ := runs_goto.1 h
  obtain rfl := Option.some.inj (hB.symm.trans hB')
  obtain ⟨B', hB', hlen, hterm, -⟩ := goes_close (L := L) (m := m) hL (updateBlock_self hB _) (by simp)
    (List.append_nil _).symm hw.length rfl
  have hleave : Machine.leave (M := I.machine L) (.goto e) regs m = .jumped none x args m := by
    rw [Machine.leave, Machine.jump, hargs.readAll, Machine.read, hx]
  exact .jump hB' hlen hterm hleave hc (.refl _)

theorem goes_handBack {regs : List (Word I)} {name : String} {r : Option Register}
    {v : Option I.Value} (h : Runs (handBack name b r) s u s') (hL : Links L s')
    (hw : s.graph.Mirrors b regs w) (hr : Reads regs r.toList (v.toList.map .plain))
    (hcaller : HasCaller L before w.slot) {cs : Contexts I} (hcs : before <+: cs) (σ : I.State) :
    ∃ y, L.graph.Goes (M := I.machine L) 1 (.inside b regs ⟨σ, cs⟩) y ∧
      Resumes L before σ y w.slot v := by
  obtain ⟨B, slot, type, target, t₃, t₄, hB, hslot, hload, hgoto, rfl⟩ := handBack_cases h
  obtain ⟨B', hB', hmirrors⟩ := hw
  obtain rfl := Option.some.inj (hB.symm.trans hB')
  have hreads := hmirrors.slot
  rw [hslot] at hreads
  obtain ⟨a, ha⟩ : ∃ a, w.slot = some a := by
    cases hs : w.slot with
    | none => simp [hs] at hreads
    | some a => exact ⟨a, rfl⟩
  have hcontext : regs[slot.index]? = some (.context a) := by simpa [ha] using hreads
  obtain ⟨x, c, hx, hc⟩ := hcaller a ha
  have hfield : (Memory.mk σ cs).field? a 0 = some x := by
    obtain ⟨f, hf, hx⟩ := Option.bind_eq_some_iff.1 hx
    obtain ⟨more, rfl⟩ := hcs
    simp [Memory.field?, getElem?_append_of_some hf more, hx]
  have hloads : Machine.value (M := I.machine L) ⟨.getField slot 0, type⟩ regs ⟨σ, cs⟩ =
      some (x, ⟨σ, cs⟩) := by
    have hreads : Reads regs (Operation.getField slot 0).operands [.context a] := .cons hcontext .nil
    rw [hreads.value rfl, execute_getField_context, hfield]
    rfl
  have hL₃ : t₃.graph.Extends L.graph := (moves_goto hgoto).graph_extends.trans hL.graph
  have hw : s.graph.Mirrors b regs w := ⟨B, hB, hmirrors⟩
  obtain rfl := register_emit hload hw
  obtain ⟨hgoes, hw₃⟩ := goes_emit (m := ⟨σ, cs⟩) hload hL₃ hw hloads
  have hpassed : Reads (regs ++ [x]) (slot :: r.toList) (.context a :: v.toList.map .plain) :=
    .cons (getElem?_append_of_some hcontext [x]) (hr.append [x])
  have hleave := goes_goto (m := ⟨σ, cs⟩) hgoto hL.graph hw₃ (by simp) hpassed hc
  exact ⟨_, hgoes.trans hleave, a, x, c, cs, ha, hx, hc, hcs, rfl⟩

theorem goes_return {frame : Option Frame} (h : Runs (lowerReturn frame b none) s u s')
    (hL : Links L s') (hcaller : HasCaller L before w.slot)
    (hy : s.graph.Yields b w before σ none y) :
    ∃ z, L.graph.Goes 1 y z ∧ Resumes L before σ z w.slot none := by
  obtain ⟨name, result, c, r, s₁, -, hreturned, hback⟩ := runs_lowerReturn.1 h
  simp only [lowerReturnValue, Runs.ite_iff, Runs.bind_iff, Runs.throw_iff, Runs.pure_iff,
    Prod.mk.injEq, false_and, exists_false, and_false, false_or] at hreturned
  obtain ⟨-, ⟨rfl, rfl⟩, rfl⟩ := hreturned
  obtain ⟨regs, cs, rfl, hw, hcs, -⟩ := hy
  exact goes_handBack hback hL hw .nil hcaller hcs σ

theorem performs_ret {q : Program} {call : FunctionDecl → List I.Value → I.Eval (Option I.Value)}
    {value : Option Expr} (hvalue : ∀ e ∈ value, Realizes L n q call e ∧ e.type.isVoid = false)
    {frame : Option Frame} (h : Runs (lowerReturn frame b value) s u s') (hs : s.Tidy)
    (hL : Links L s') :
    Performs L n s b (do
      let v ← evalReturn q call value
      return .ret v) (Exits L s' none) := by
  intro w before σ y hcaller hy
  cases value with
  | none =>
    obtain ⟨y', hgoes, hy'⟩ := goes_return h hL hcaller hy
    exact ⟨1, y', hgoes, .refl _, hy'⟩
  | some e =>
    obtain ⟨name, result, c, r, s₁, -, hreturned, hback⟩ := runs_lowerReturn.1 h
    have hL₁ := hL.back (rebuilds_handBack hback).grows
    obtain ⟨he, hv⟩ := hvalue e rfl
    simp only [lowerReturnValue, Runs.ite_iff, Runs.bind_iff, Runs.throw_iff, Runs.pure_iff,
      Runs.lift_build_iff, Prod.mk.injEq, false_and, exists_false, and_false, false_or] at hreturned
    obtain ⟨-, _, s₁, he₁, r, _, ⟨t₂, hlast, rfl⟩, ⟨rfl, rfl⟩, rfl⟩ := hreturned
    obtain ⟨-, -, -, rfl⟩ := runs_lastRegister.1 hlast
    have hreturn : Simulates L (n + 1) y (evalReturn q call (some e) w.vars σ) fun v vs σ' y' =>
        ∃ a, v = some a ∧ Gives L s₁ c w before e.type a vs σ' y' :=
      Simulates.bind (he he₁ hs hL₁ hy) fun a _ _ _ hgives => .done ⟨a, rfl, hgives⟩
    refine Simulates.bind hreturn ?_
    rintro _ vs σ₁ y₁ ⟨a, rfl, hgives⟩
    obtain ⟨regs, cs, rfl, hw, hcs, hlast'⟩ := hgives.value hv
    have hr := (reads_lastRegister hlast hw).2.trans (hlast' a rfl)
    obtain ⟨y', hgoes, hy'⟩ := goes_handBack (v := some a) hback hL hw (.cons hr .nil) hcaller hcs σ₁
    exact ⟨1, y', hgoes, hgives.1.keeps, hy'⟩

theorem Exits.widen (h : Exits L s o { w with vars := vs } before exit vs₁ σ y)
    (hvs : w.vars.Keeps vs) : Exits L s o w before exit vs₁ σ y :=
  ⟨hvs.trans h.1, h.2⟩

theorem ExitsScope.beside (h : ExitsScope L s o w before exit vs σ y)
    (hX : Apart s (X ++ o.toList)) (hs : Shifts fs cs X s Y s') :
    ExitsScope L s' o w before exit vs σ y := by
  obtain ⟨vs', hexits, rfl⟩ := h
  refine ⟨vs', ?_, rfl⟩
  cases exit with
  | normal =>
    obtain ⟨hvs, c, rfl, hy⟩ := hexits
    exact ⟨hvs, c, rfl, hy.kept fun _ => hs.keeps hX.apart_last⟩
  | _ => exact hexits.shift (by simp) hX.left hs _

namespace Joins

variable {preds : List BlockId}

theorem goes (h : Joins b preds s o s') (hL : Links L s') {w₀ : View I}
    (hframes : s.graph.Frames b w₀) {d : BlockId} (hd : d ∈ preds) (hslot : w.slot = w₀.slot)
    (hvs : w₀.vars.Passes w.vars vs) (hy : s.graph.Yields d w before σ none y) :
    ∃ z c, L.graph.Goes 1 y z ∧ o = some c ∧
      s'.graph.Yields c { w with vars := vs } before σ none z := by
  obtain ⟨regs, cs, rfl, hw, hcs, -⟩ := hy
  rcases h with ⟨rfl, -, -⟩ | ⟨-, c, t, hconverge, rfl, rfl⟩
  · simp at hd
  · obtain ⟨args, hgoes, hreceives⟩ := goes_converge hconverge hL.graph hframes hd hw hslot hvs ⟨σ, cs⟩
    exact ⟨_, c, hgoes.trans (hreceives.goes hL.graph ⟨σ, cs⟩), rfl, hreceives.yields hcs σ⟩

theorem exits {o' : Option BlockId} (h : Joins b preds s o s') (hL : Links L s')
    (hframes : s.graph.Frames b w) (ho : ∀ d ∈ o', d ∈ preds) (hpreds : Apart s preds)
    (hexits : ExitsScope L s o' w before exit vs σ y) :
    ∃ k z, L.graph.Goes k y z ∧ Exits L s' o w before exit vs σ z := by
  obtain ⟨vs', hexits, rfl⟩ := hexits
  cases exit with
  | normal =>
    obtain ⟨hvs, d, hd, hy⟩ := hexits
    obtain ⟨z, c, hgoes, hc, hz⟩ := h.goes (w := { w with vars := vs' }) hL hframes (ho d hd) rfl
      hvs.passes_within hy
    exact ⟨1, z, hgoes, hvs.within, c, hc, hz⟩
  | _ => exact ⟨0, y, .refl y, hexits.shift (by simp) hpreds h.rebuilds.shifts _⟩

end Joins

theorem enter_ne (h : Runs (enter b) t₀ c t) : c ≠ b := by
  simp only [enter, Runs.bind_iff, Runs.pure_iff] at h
  obtain ⟨_, t₁, hchild, _, _, -, rfl, -⟩ := h
  exact fun heq => not_mem_preds hchild (by simp [heq])

theorem frames_enter {d : BlockId} (h : Runs (enter b) t₀ c t) (hd : t₀.graph.Frames d w) :
    t.graph.Frames d w := by
  simp only [enter, Runs.bind_iff, Runs.pure_iff] at h
  obtain ⟨_, t₁, hchild, _, _, hjump, rfl, rfl⟩ := h
  exact frames_jump hjump (hd.kept fun B hB => (moves_newChild hchild).keeps d B (by simp) hB)

theorem yields_enter (h : Runs (enter b) s.toBuilder c t) (hL : t.graph.Extends L.graph)
    (hy : s.graph.Yields b w before σ none y) :
    ∃ args cs, L.graph.Goes 1 y (.entry c args ⟨σ, cs⟩) ∧ t.graph.Receives c args w ∧ before <+: cs ∧
      t.graph.Frames b w := by
  obtain ⟨regs, cs, rfl, hw, hcs, -⟩ := hy
  obtain ⟨args, hgoes, hreceives⟩ := goes_converge (runs_enter.1 h) hL hw.frames (by simp) hw rfl
    (Variables.Keeps.refl _).passes ⟨σ, cs⟩
  exact ⟨args, cs, hgoes, hreceives, hcs, frames_enter h hw.frames⟩

theorem Performs.entry {Q : View I → Contexts I → I.Exit → I.Variables → I.State →
      (I.machine L).Point → Prop} (h : Performs L n s b x Q) (hL : s.graph.Extends L.graph)
    {args : List (Word I)} {cs : Contexts I} (hcaller : HasCaller L before w.slot)
    (hreceives : s.graph.Receives b args w) (hcs : before <+: cs) :
    Simulates L (n + 1) (.entry b args ⟨σ, cs⟩) (x w.vars σ) (Q w before) := by
  exact ((h hcaller (hreceives.yields hcs σ)).goes (hreceives.goes hL ⟨σ, cs⟩)).mono (by omega)

theorem performs_scope {inner : BlockId} {o' : Option BlockId}
    (henter : Runs (enter b) s.toBuilder inner t)
    (hbody : Performs L n { s with toBuilder := t } inner x (ExitsScope L s₁ o'))
    (hshift : Shifts fs cs [inner] { s with toBuilder := t } o'.toList s₁) (hb : Apart s [b])
    (hjoin : Joins b o'.toList s₁ o s') (hL : Links L s') : Performs L n s b x (Exits L s' o) := by
  intro w before σ y hcaller hy
  have hinner : Apart { s with toBuilder := t } [inner] :=
    Apart.after (Z := []) hb (.of_moves (moves_enter henter))
  have hends : Apart s₁ o'.toList := Apart.left (Z := []) (Apart.after hinner hshift)
  have hL₁ := hshift.graph_extends.trans (hL.back hjoin.rebuilds.grows).graph
  obtain ⟨args, cs, hgoes, hreceives, hcs, hframes⟩ := yields_enter henter hL₁ hy
  have hframes₁ := hframes.kept fun B => hshift.keeps (by simpa using (enter_ne henter).symm)
  refine ((hbody.entry hL₁ hcaller hreceives hcs).goes hgoes).mono (by omega) |>.goesOn ?_
  intro exit vs σ' y' hexits
  exact hjoin.exits hL hframes₁ (by simp) hends hexits

section Code

variable {q : Program} {call : FunctionDecl → List I.Value → I.Eval (Option I.Value)} {e : Expr}

theorem performs_expr (he : Realizes L n q call e) (h : Runs (lowerExpr b e) s c s') (hs : s.Tidy)
    (hL : Links L s') :
    Performs L n s b (do
      let _ ← evalExpr q call e
      return .normal) (Exits L s' (some c)) := by
  intro w before σ y _ hy
  refine Simulates.bind (he h hs hL hy) ?_
  rintro v vs σ₁ y₁ ⟨hvs, hy₁⟩
  exact .done ⟨hvs.keeps, c, rfl, hy₁.forget⟩

theorem performs_cond {a onTrue onFalse : BlockId} {r : Register} {t₂ t₃ : Builder} {s₄ s₅ : State}
    {first second : Option BlockId} {x' : I.Eval I.Exit} {fs' : List FunctionId} {cs' : List ClassId}
    (he : Realizes L n q call e) (hv : e.type.isVoid = false) (hcond : Runs (lowerExpr b e) s a s₁)
    (hlast : Runs (lastRegister a) s₁.toBuilder r t₂)
    (hbranch : Runs (branch a r) t₂ (onTrue, onFalse) t₃)
    (hfirst : Performs L n { s₁ with toBuilder := t₃ } onTrue x (ExitsScope L s₄ first))
    (hsecond : Performs L n s₄ onFalse x' (ExitsScope L s₅ second))
    (hshift : Shifts fs cs [onTrue] { s₁ with toBuilder := t₃ } first.toList s₄)
    (hshift' : Shifts fs' cs' [onFalse] s₄ second.toList s₅)
    (hjoin : Joins a (first.toList ++ second.toList) s₅ o s') (hs : s.Tidy) (hb : Apart s [b])
    (hL : Links L s') (hL₁ : Links L s₁) :
    Performs L n s b (do
      if ← evalCondition q call e then x else x') (Exits L s' o) := by
  intro w before σ y hcaller hy
  have hsplit := (leads_lowerExpr b e hcond).trans (rebuilds_branch hlast hbranch)
  have harms : Apart { s₁ with toBuilder := t₃ } [onTrue, onFalse] :=
    Apart.left (Z := []) (Apart.after hb hsplit.shifts)
  have harms₄ : Apart s₄ (first.toList ++ [onFalse]) := Apart.after (Z := [onFalse]) harms hshift
  have harms₅ : Apart s₅ (second.toList ++ first.toList) :=
    Apart.after (harms₄.perm List.perm_append_comm) hshift'
  have hL₅ := (hL.back hjoin.rebuilds.grows).graph
  have hL₃ := (hshift.graph_extends.trans hshift'.graph_extends).trans hL₅
  obtain ⟨⟨hat, haf, htf⟩, -⟩ := branch_apart hbranch
  have htest : Simulates L (n + 1) y (evalCondition q call e w.vars σ) fun side vs σ' y' =>
      w.vars.Keeps vs ∧
        t₃.graph.Yields (if side then onTrue else onFalse) { w with vars := vs } before σ' none y' ∧
        t₃.graph.Frames a { w with vars := vs } := by
    refine Simulates.bind (he hcond hs hL₁ hy) fun v vs σ₁ y₁ hgives => ?_
    refine (simulates_choose hlast hbranch hL₃ (hgives.value hv)).imp ?_
    rintro side _ σ₂ y₂ ⟨rfl, hy₂⟩
    exact ⟨hgives.1.keeps, hy₂⟩
  refine Simulates.bind htest ?_
  rintro side vs σ₁ y₁ ⟨hvs, hy₁, hframes⟩
  have hframes₅ : s₅.graph.Frames a { w with vars := vs } := by
    refine (hframes.kept fun B hB => hshift.keeps (by simpa using hat.symm) hB).kept fun B hB => ?_
    exact hshift'.keeps (by simpa using haf.symm) hB
  have hends {exit : I.Exit} {vs' : I.Variables} {σ' : I.State} {y' : (I.machine L).Point}
      {o' : Option BlockId} (ho : ∀ d ∈ o', d ∈ first.toList ++ second.toList)
      (hexits : ExitsScope L s₅ o' { w with vars := vs } before exit vs' σ' y') :
      ∃ k z, L.graph.Goes k y' z ∧ Exits L s' o w before exit vs' σ' z := by
    obtain ⟨k, z, hgoes, hz⟩ := hjoin.exits hL hframes₅ ho (harms₅.perm List.perm_append_comm) hexits
    exact ⟨k, z, hgoes, hz.widen hvs⟩
  cases side with
  | true =>
    refine (hfirst (w := { w with vars := vs }) hcaller hy₁).goesOn fun exit vs' σ' y' hexits => ?_
    exact hends (by simp +contextual) (hexits.beside (harms₄.perm List.perm_append_comm) hshift')
  | false =>
    have hy₄ := hy₁.kept fun B hB => hshift.keeps (by simpa using htf.symm) hB
    refine (hsecond (w := { w with vars := vs }) hcaller hy₄).goesOn fun exit vs' σ' y' hexits => ?_
    exact hends (by simp +contextual) hexits

end Code

theorem Performs.andThen {x' : I.Eval I.Exit} (h : Performs L n s b x (Exits L s₁ (some c)))
    (h' : Performs L n s₁ c x' (Exits L s' o)) (hc : Apart s₁ [c]) (hs : Shifts fs cs [c] s₁ Y s') :
    Performs L n s b (do
      match ← x with
      | .normal => x'
      | exit => return exit) (Exits L s' o) := by
  intro w before σ y hcaller hy
  refine Simulates.bind (h hcaller hy) fun exit vs σ₁ y₁ hexits => ?_
  cases exit with
  | normal =>
    obtain ⟨hvs, d, hd, hy₁⟩ := hexits
    obtain rfl := Option.some.inj hd
    exact (h' (w := { w with vars := vs }) hcaller hy₁).imp fun _ _ _ _ hexits => hexits.widen hvs
  | _ => exact .done (hexits.shift (by simp) hc hs o)

theorem Performs.andNever {x' : I.Eval I.Exit} (h : Performs L n s b x (Exits L s₁ none))
    (hs : Rebuilds [] s₁ [] s') (hb : Apart s₁ []) :
    Performs L n s b (do
      match ← x with
      | .normal => x'
      | exit => return exit) (Exits L s' none) := by
  intro w before σ y hcaller hy
  refine Simulates.bind (h hcaller hy) fun exit vs σ₁ y₁ hexits => ?_
  cases exit with
  | normal =>
    obtain ⟨-, d, hd, -⟩ := hexits
    simp at hd
  | _ => exact .done (hexits.shift (by simp) hb hs.shifts _)

end Lowering

end BlockGraph
