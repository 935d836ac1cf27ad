import BlockGraph.Proofs.Course.Proceeding
import BlockGraph.Sample

namespace BlockGraph.Lowering

open Builder

structure Plan.Starts {α : Type} (c : Plan α) (s : State) : Prop where
  within : ∃ fs cs, c.Within fs cs ∧ fs.Nodup ∧ cs.Nodup ∧ Unknown fs cs s
  sound : s.Sound

section Points

variable {α β γ : Type} {c : Plan α} {d : Plan β} {d' : Plan γ} {s t t' u v v' : State}

namespace Plan.Starts

theorem retains {a : α} (h : c.Starts s) (hrun : Runs c.run s a u) : Retains s u := by
  obtain ⟨fs, cs, hc, -, -, hnew⟩ := h.within
  exact (hc.proceeds hrun).retains hnew

theorem ends {a : α} (h : c.Starts s) (hrun : Runs c.run s a u) : u.Sound := by
  obtain ⟨fs, cs, hc, -⟩ := h.within
  exact (hc.proceeds hrun).sound h.sound

theorem visits (h : c.Starts s) (hv : Visits c s d t) : Retains s t ∧ d.Starts t := by
  obtain ⟨fs, cs, hc, hfs, hcs, hnew⟩ := h.within
  obtain ⟨fs₁, cs₁, fs₂, cs₂, hst, hd, hf, hk⟩ := hv.within hc
  have hfs' := hfs.sublist hf
  have hcs' := hcs.sublist hk
  have hnew' : Unknown (fs₁ ++ fs₂) (cs₁ ++ cs₂) s := hnew.mono (fun _ hm => hf.subset hm)
    fun _ hm => hk.subset hm
  constructor
  · apply hst.retains
    exact hnew'.mono (fun _ => List.mem_append_left _) fun _ => List.mem_append_left _
  · refine ⟨⟨fs₂, cs₂, hd, hfs'.of_append_right, hcs'.of_append_right, ?_⟩, hst.sound h.sound⟩
    apply hst.unknown
    · exact hnew'.mono (fun _ => List.mem_append_right _) fun _ => List.mem_append_right _
    · exact List.disjoint_of_nodup_append hfs'
    · exact List.disjoint_of_nodup_append hcs'

end Plan.Starts

theorem Visits.retains_end {a : α} {b : β} (hv : Visits c s d t) (h : c.Starts s)
    (hd : Runs d.run t b v) (hc : Runs c.run s a u) : Retains v u := by
  induction hv generalizing u with
  | refl =>
    obtain ⟨-, rfl⟩ := hd.unique hc
    exact .refl v
  | enter _ ih =>
    rw [Plan.run_call, ← Task.run_plan] at hc
    exact ih (h.visits (.enter .refl)).2 hd hc
  | first _ ih =>
    obtain ⟨a', u', hc, hrest⟩ := Runs.bind_iff.1 hc
    have hlater := (h.visits (.after hc .refl)).2.retains hrest
    exact (ih (h.visits (.first .refl)).2 hd hc).trans hlater
  | after hrun _ ih =>
    obtain ⟨a', u', hc, hrest⟩ := Runs.bind_iff.1 hc
    obtain ⟨rfl, rfl⟩ := hrun.unique hc
    exact ih (h.visits (.after hrun .refl)).2 hd hrest

theorem Precedes.retains {x : Task β} (hx : Precedes c s x v t) (h : c.Starts s) : Retains v t := by
  induction hx with
  | last hx hv hc => exact hx.retains_end h hv hc
  | split hx hv hc hvisit =>
    have hfirst := (h.visits (.first .refl)).2
    have hrest := (h.visits (.after hc .refl)).2
    exact (hx.retains_end hfirst hv hc).trans (hrest.visits hvisit).1
  | enter _ ih => exact ih (h.visits (.enter .refl)).2
  | first _ ih => exact ih (h.visits (.first .refl)).2
  | after hc _ ih => exact ih (h.visits (.after hc .refl)).2

theorem Precedes.visits {x : Task β} (hx : Precedes c s x v t) :
    ∃ s' r, Visits c s (.call x) s' ∧ Runs x.run s' r v := by
  induction hx with
  | last hx hv _ => exact ⟨_, _, hx, hv⟩
  | split hx hv _ _ => exact ⟨_, _, .first hx, hv⟩
  | enter _ ih =>
    obtain ⟨s', r, hx, hv⟩ := ih
    exact ⟨s', r, .enter hx, hv⟩
  | first _ ih =>
    obtain ⟨s', r, hx, hv⟩ := ih
    exact ⟨s', r, .first hx, hv⟩
  | after hc _ ih =>
    obtain ⟨s', r, hx, hv⟩ := ih
    exact ⟨s', r, .after hc hx, hv⟩

theorem Visits.retains_or {b : β} {b' : γ} (hv : Visits c s d t) (hv' : Visits c s d' t')
    (h : c.Starts s) (hd : Runs d.run t b v) (hd' : Runs d'.run t' b' v') :
    Retains v v' ∨ Retains v' v := by
  -- where the two ways part, one of them ends before the other one goes on
  induction hv with
  | refl => exact .inr (hv'.retains_end h hd' hd)
  | enter hv ih =>
    cases hv' with
    | refl => exact .inl ((Visits.enter hv).retains_end h hd hd')
    | enter hv' => exact ih hv' (h.visits (.enter .refl)).2 hd
  | first hv ih =>
    cases hv' with
    | refl => exact .inl ((Visits.first hv).retains_end h hd hd')
    | first hv' => exact ih hv' (h.visits (.first .refl)).2 hd
    | after hc hv' =>
      have hrest := (h.visits (.after hc .refl)).2.visits hv'
      exact .inl ((hv.retains_end (h.visits (.first .refl)).2 hd hc).trans
        (hrest.1.trans (hrest.2.retains hd')))
  | after hc hv ih =>
    cases hv' with
    | refl => exact .inl ((Visits.after hc hv).retains_end h hd hd')
    | first hv' =>
      have hrest := (h.visits (.after hc .refl)).2.visits hv
      exact .inr ((hv'.retains_end (h.visits (.first .refl)).2 hd' hc).trans
        (hrest.1.trans (hrest.2.retains hd)))
    | after hc' hv' =>
      obtain ⟨rfl, rfl⟩ := hc.unique hc'
      exact ih hv' (h.visits (.after hc .refl)).2 hd

end Points

theorem program_starts {p : Program} (hf : p.DistinctFunctions) (hc : p.DistinctClasses) :
    (Plan.call (.program p)).Starts {} where
  within := ⟨_, _, within_program p, hf, hc, by simp, by simp⟩
  sound := State.sound_empty

section Statements

variable {frame : Option Frame} {b c : BlockId} {s s' : State}

theorem visits_stmts {ss : List Stmt} (rest : List Stmt)
    (h : Runs (lowerStmts frame b ss) s (some c) s') :
    Visits (.call (.stmts frame b (ss ++ rest))) s (.call (.stmts frame c rest)) s' := by
  induction ss generalizing b s with
  | nil =>
    obtain ⟨hc, rfl⟩ := Runs.pure_iff.1 h
    obtain rfl := Option.some.inj hc
    exact .refl
  | cons S ss ih =>
    rw [lowerStmts] at h
    obtain ⟨o, t, hS, h⟩ := Runs.bind_iff.1 h
    cases o with
    | some d => exact .enter (.after hS (ih h))
    | none => simp at h

theorem visits_scope {cs : List ClassDecl} {fs : List FunctionDecl} {ss : List Stmt} (rest : List Stmt)
    (h : Runs (lowerScope frame b ⟨cs, fs, ss⟩) s (some c) s') :
    Visits (.call (.scope frame b ⟨cs, fs, ss ++ rest⟩)) s (.call (.stmts frame c rest)) s' := by
  rw [lowerScope] at h
  simp only [Runs.bind_iff] at h
  obtain ⟨_, t₁, hclasses, _, t₂, hentries, _, t₃, hfields, _, t₄, hfunctions, h⟩ := h
  exact (visits_hoisted hclasses hentries hfields).trans (.after (c := .call (.functions fs)) hfunctions
    (visits_stmts rest h))

end Statements

section Injectivity

variable {s : State}

theorem State.Sound.returns_inj (hs : s.Sound) {t u : ValueType} {l : LayoutId}
    (ht : s.returnLayouts.get? t = some l) (hu : s.returnLayouts.get? u = some l) : t = u := by
  -- the field of the layout tells the type of the result
  have heq := Option.some.inj ((hs.returning t l ht).symm.trans (hs.returning u l hu))
  simp only [Builder.returning, Layout.mk.injEq, List.cons.injEq, ValueType.blockRef.injEq] at heq
  exact continuation_inj heq.1.1

mutual

theorem State.Sound.lowered?_inj (hs : s.Sound) : (t u : SourceType) → {v : ValueType} →
    lowered? s t = some v → lowered? s u = some v → t = u
  | .prim p, u, v, ht, hu => by
    obtain rfl : ValueType.prim p = v := by simpa [lowered?] using ht
    cases u <;> simp [lowered?, Option.bind_eq_some_iff] at hu
    rw [hu]
  | .object k, u, v, ht, hu => by
    simp only [lowered?, Option.map_eq_some_iff] at ht
    obtain ⟨l, hl, rfl⟩ := ht
    cases u <;> simp [lowered?, Option.bind_eq_some_iff] at hu
    case object k' =>
      have hk := hs.layout_inj _ _ l hl hu
      cases k
      cases k'
      simp_all
  | .array t, u, v, ht, hu => by
    obtain ⟨w, hw, rfl⟩ := lowered?_array.1 ht
    cases u <;> simp [lowered?, Option.bind_eq_some_iff] at hu
    case array u => rw [hs.lowered?_inj t u hw hu]
  | .function result parameters, u, v, ht, hu => by
    simp only [lowered?, Option.bind_eq_some_iff, Option.map_eq_some_iff] at ht
    obtain ⟨w, hw, l, hl, ws, hws, rfl⟩ := ht
    cases u <;> simp [lowered?, Option.bind_eq_some_iff] at hu
    case function result' parameters' =>
      obtain ⟨w', hw', hl', hws'⟩ := hu
      obtain rfl := hs.returns_inj hl hl'
      rw [hs.lowered?_inj result result' hw hw', hs.loweredAll?_inj parameters parameters' hws hws']

theorem State.Sound.loweredAll?_inj (hs : s.Sound) : (ts us : List SourceType) → {vs : List ValueType} →
    loweredAll? s ts = some vs → loweredAll? s us = some vs → ts = us
  | [], us, vs, ht, hu => by
    obtain rfl : [] = vs := by simpa [loweredAll?] using ht
    cases us <;> simp [loweredAll?, Option.bind_eq_some_iff] at hu
    rfl
  | t :: ts, us, vs, ht, hu => by
    simp only [loweredAll?, Option.bind_eq_some_iff, Option.map_eq_some_iff] at ht
    obtain ⟨v, hv, vs, hvs, rfl⟩ := ht
    cases us <;> simp [loweredAll?, Option.bind_eq_some_iff] at hu
    case cons u us => rw [hs.lowered?_inj t u hv hu.1, hs.loweredAll?_inj ts us hvs hu.2]

end

end Injectivity

structure State.Enters (s : State) (f : FunctionDecl) (e : FunctionEntry) (E : Block) : Prop where
  entry : s.functions[f.id.index]? = some e
  block : s.graph.block? e.entry = some E
  type : lowered? s f.type = some (.blockRef E.parameterTypes)

section Entries

variable {f : FunctionDecl} {s s' : State}

theorem State.Enters.mono {e : FunctionEntry} {E : Block} (h : s.Enters f e E) (hs : Retains s s') :
    ∃ E', s'.Enters f e E' := by
  obtain ⟨E', hE', hext⟩ := hs.graph _ E h.block
  refine ⟨E', hs.functions _ e h.entry, hE', ?_⟩
  rw [hext.parameterTypes]
  exact hs.lowered? _ _ h.type

theorem map_type_parameters {R : SourceType → ValueType → Prop} {ps : List Slot} {ts : List ValueType}
    (h : List.Forall₂ R (ps.map (·.type)) ts) :
    (ps.zipWith (fun p t => Parameter.mk t (some p.name)) ts).map (·.type) = ts := by
  rw [List.forall₂_map_left_iff] at h
  induction h with
  | nil => rfl
  | cons _ _ ih => exact congrArg _ ih

theorem enters_of_declareFunction {u : Unit} (hnew : Unknown [f.id] [] s)
    (h : Runs (declareFunction f) s u s') : ∃ e E, s'.Enters f e E := by
  obtain ⟨result, t₁, returns, t₂, types, t₃, entry, t₄, t₅, t₆, hresult, hreturns, htypes, hadd, hset,
    hdefine, rfl⟩ := declareFunction_cases h
  have hmove : Moves [entry] [] t₃.toBuilder [entry] t₆ :=
    ((moves_addBlock hadd).trans (moves_setLocals hset)).trans (stays_defineParameters hdefine).toMoves
  have hlast := settles_lowerTypes _ htypes
  have hlater := (settles_returnLayout hreturns).trans hlast
  have hgrow := (Shifts.insert hmove f.id rfl : Shifts _ _ _ _ _ { t₃ with
    toBuilder := t₆, functions := t₃.functions.insert f.id.index ⟨f.name, entry, returns⟩ }).grows
      (hnew.after ((settles_lowerType _ hresult).trans hlater).shifts (by simp) (by simp))
  have htype : lowered? t₃ f.type = some (.blockRef (.object returns :: types)) := by
    obtain ⟨t, ht, rfl⟩ := Runs.lift_build_iff.1 hreturns
    simp only [FunctionDecl.type, lowered?, Option.bind_eq_some_iff, Option.map_eq_some_iff]
    exact ⟨result, hlater.grows.lowered? _ _ (lowered?_of_runs _ _ hresult), returns,
      hlast.grows.returns _ _ (returnLayout_get? ht), types, loweredAll?_of_runs _ _ htypes, rfl⟩
  obtain ⟨rfl, rfl⟩ := runs_addBlock.1 hadd
  obtain ⟨⟨B, hB⟩, rfl⟩ := runs_setLocals.1 hset
  obtain ⟨E, hE, hext⟩ := (stays_defineParameters hdefine).graph_extends _ _ (updateBlock_self hB _)
  rw [appendBlock_block?, if_pos rfl] at hB
  obtain rfl := Option.some.inj hB
  refine ⟨⟨f.name, t₃.graph.nextId, returns⟩, E, by simp, hE, hgrow.lowered? _ _ ?_⟩
  rw [htype, hext.parameterTypes]
  have hparameters := map_type_parameters (loweredAll?_eq_some.1 (loweredAll?_of_runs _ _ htypes))
  exact congrArg (fun ts => some (ValueType.blockRef (.object returns :: ts))) hparameters.symm

theorem State.Enters.reference {e : FunctionEntry} {E : Block} {b c : BlockId} {t : SourceType}
    (h : s.Enters f e E) (hrun : Runs (lowerExpr b (.function f.id t)) s c s') :
    ∃ C r, s'.graph.block? c = some C ∧ C.lastRegister? = some r ∧
      C.typeOf? r = some (.blockRef E.parameterTypes) := by
  rw [lowerExpr] at hrun
  simp only [Runs.bind_iff, runs_functionEntry, Runs.lift_build_iff, Runs.pure_iff] at hrun
  obtain ⟨e', _, ⟨he, rfl⟩, r, _, ⟨u, href, rfl⟩, rfl, rfl⟩ := hrun
  obtain rfl := Option.some.inj (h.entry.symm.trans he)
  obtain ⟨T, B, hT, hB, hopen, rfl, rfl⟩ := runs_emitRef.1 href
  obtain rfl := Option.some.inj (h.block.symm.trans hT)
  exact ⟨_, _, updateBlock_self hB _, by simp [Block.lastRegister?], Block.typeOf?_push_last ..⟩

end Entries

end Lowering

open Lowering

/-- In the course of lowering, the task is begun in `s` and ends in `s'` with the answer. -/
def Program.Performs (p : Program) {α : Type} (x : Lowering.Task α) (s : State) (a : α) (s' : State) : Prop :=
  Visits (.call (.program p)) {} (.call x) s ∧ Runs x.run s a s'

/-- **Types are lowered alike everywhere.** In the course of lowering, two types become the same type
exactly if they are the same. From the time when a function is declared, its own type becomes that of
a reference to a block with the parameters of its entry, which is the type of a reference to it. -/
theorem Program.lower_types_exact {p : Program} (hf : p.DistinctFunctions) (hc : p.DistinctClasses) :
    (∀ t s v s' t' r v' r', p.Performs (.type t) s v s' → p.Performs (.type t') r v' r' →
      (v = v' ↔ t = t')) ∧
    ∀ f s s', Precedes (.call (.program p)) {} (.entry f) s s' →
      ∃ e E, s'.functions[f.id.index]? = some e ∧ s'.graph.block? e.entry = some E ∧
        Runs (lowerType f.type) s' (.blockRef E.parameterTypes) s' ∧
        ∀ t b c s'', Runs (lowerExpr b (.function f.id t)) s' c s'' →
          ∃ C r, s''.graph.block? c = some C ∧ C.lastRegister? = some r ∧
            C.typeOf? r = some (.blockRef E.parameterTypes) := by
  have hstart := program_starts hf hc
  constructor
  · intro t s v s' t' r v' r' h h'
    have hv := lowered?_of_runs t v h.2
    have hv' := lowered?_of_runs t' v' h'.2
    obtain ⟨u, hu, ht, ht'⟩ : ∃ u : State, u.Sound ∧ lowered? u t = some v ∧ lowered? u t' = some v' := by
      rcases h.1.retains_or h'.1 hstart h.2 h'.2 with hretain | hretain
      · exact ⟨r', (hstart.visits h'.1).2.ends h'.2, hretain.lowered? _ _ hv, hv'⟩
      · exact ⟨s', (hstart.visits h.1).2.ends h.2, hv, hretain.lowered? _ _ hv'⟩
    constructor
    · rintro rfl
      exact hu.lowered?_inj t t' ht ht'
    · rintro rfl
      exact Option.some.inj (ht.symm.trans ht')
  · intro f s s' h
    obtain ⟨s₀, _, hvisit, hrun⟩ := h.visits
    obtain ⟨fs, cs, hwithin, -, -, hnew⟩ := (hstart.visits hvisit).2.within
    cases hwithin
    obtain ⟨e, E, henter⟩ := enters_of_declareFunction (hnew.mono (fun _ h => h) (by simp)) hrun
    obtain ⟨E', henter⟩ := henter.mono (h.retains hstart)
    exact ⟨e, E', henter.entry, henter.block, runs_lowerType_of_lowered? _ _ henter.type,
      fun _ _ _ _ => henter.reference⟩

def visiting : Program :=
  let node : SourceType := .object ⟨0⟩
  let visit : SourceType := .function Sample.byte [node]
  ⟨{ classes := [⟨⟨0⟩, "Node", [⟨"next", node⟩, ⟨"visit", visit⟩]⟩]
     functions := [
      { id := ⟨0⟩
        name := "apply"
        result := Sample.byte
        parameters := [⟨"n", node⟩, ⟨"f", visit⟩]
        body := { statements := [.ret (some (Expr.mkCall (.var "f" visit) [.var "n" node]))] } }]
     statements := [] }⟩

theorem Program.lower_types_exact_visiting :
    visiting.DistinctFunctions ∧ visiting.DistinctClasses ∧
    (∃ s v s' r v' r', visiting.Performs (.type Sample.byte) s v s' ∧
      visiting.Performs (.type (.object ⟨0⟩)) r v' r' ∧ v ≠ v') ∧
    ∃ f s entry s' e E, visiting.body.functions = [f] ∧
      Precedes (.call (.program visiting)) {} (.entry f) s s' ∧
      Runs (lowerProgram visiting) {} entry s' ∧
      s'.functions[f.id.index]? = some e ∧ s'.graph.block? e.entry = some E ∧
      Runs (lowerType f.type) s' (.blockRef E.parameterTypes) s' := by
  have hf : visiting.DistinctFunctions := by decide
  have hc : visiting.DistinctClasses := by decide
  obtain ⟨L, hL⟩ := exists_eq_ok (x := visiting.lower.result) (by decide +kernel)
  obtain ⟨entry, s', hrun, -⟩ := Program.lower_eq_ok.1 hL
  obtain ⟨rfl, o, s₁, hbody, -⟩ := runs_lowerProgram.1 hrun
  rw [visiting, lowerScope] at hbody
  simp only [Runs.bind_iff] at hbody
  obtain ⟨_, t₁, hdeclare, _, t₂, hentries, -⟩ := hbody
  obtain ⟨t₃, hentry, -⟩ := Runs.forM_cons.1 hentries
  have hvisit : Visits (.call (.program visiting)) {} (.call (.entry _)) t₁ :=
    (visits_body visiting).trans (.enter (.after hdeclare (.first (.first .refl))))
  have hentry' := hentry
  simp only [declareFunction, Runs.bind_iff] at hentry'
  obtain ⟨v, r₁, hresult, l, r₂, hreturns, vs, r₃, htypes, -⟩ := hentry'
  rw [List.map_cons, lowerTypes] at htypes
  obtain ⟨v', r', hparameter, -⟩ := Runs.bind_iff.1 htypes
  have hbyte : visiting.Performs (.type Sample.byte) t₁ v r₁ :=
    ⟨hvisit.trans (.enter (.first .refl)), hresult⟩
  have hnode : visiting.Performs (.type (.object ⟨0⟩)) r₂ v' r' :=
    ⟨hvisit.trans (.enter (.after hresult (.after hreturns (.first (.enter (.first .refl)))))), hparameter⟩
  obtain ⟨hinj, hentered⟩ := lower_types_exact hf hc
  have hprecedes := Precedes.last hvisit hentry hrun
  obtain ⟨e, E, he, hE, htype, -⟩ := hentered _ _ _ hprecedes
  refine ⟨hf, hc, ⟨_, v, _, _, v', _, hbyte, hnode, fun heq => ?_⟩,
    _, _, _, s', e, E, rfl, hprecedes, hrun, he, hE, htype⟩
  cases (hinj _ _ _ _ _ _ _ _ hbyte hnode).1 heq

end BlockGraph
