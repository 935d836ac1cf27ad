import BlockGraph.Proofs.Simulation.Loops

namespace BlockGraph

open Interpretation

variable {I : Interpretation} {L : Lowered}

structure Block.Prepared (B : Block) (ps : List Slot) : Prop where
  code : B.instructions = []
  count : B.parameters.length = ps.length + 1
  stack : B.locals.stack = []
  slot : B.locals.returnSlot = some ⟨0⟩
  names : (ps.map (·.name)).Nodup
  symbols : ∀ e ∈ B.locals.symbols.entries, ∃ k p, ps[k]? = some p ∧ e.1 = p.name ∧
    e.2.register = some ⟨k + 1⟩

theorem Block.Prepared.mirrors {B : Block} {ps : List Slot} (h : B.Prepared ps) {args : List I.Value}
    (hargs : args.length = ps.length) (a : Nat) :
    B.Mirrors (.context a :: args.map .plain) ⟨Interpretation.parameters ps args, [], some a⟩ where
  length := by simp [Block.registerCount, h.code, h.count, hargs]
  symbols e he := by
    obtain ⟨k, p, hk, hname, hregister⟩ := h.symbols e he
    obtain ⟨hlt, -⟩ := List.getElem?_eq_some_iff.1 hk
    obtain ⟨v, hv⟩ : ∃ v, args[k]? = some v := ⟨_, List.getElem?_eq_getElem (by omega)⟩
    have hnodup : (((ps.map (·.name)).zip args).map Prod.fst).Nodup := by
      rw [List.map_fst_zip (by simp [hargs])]
      exact h.names
    have hmem : (p.name, v) ∈ (ps.map (·.name)).zip args :=
      List.mem_of_getElem? (i := k) (by simp [List.getElem?_zip_eq_some, hk, hv])
    have hlookup : ((ps.map (·.name)).zip args).lookup p.name = some v :=
      OrderedMap.get?_of_mem (m := ⟨_, hnodup⟩) hmem
    refine ⟨some v, by simp [Interpretation.parameters, hname, hlookup], fun r hr => ⟨v, rfl, ?_⟩⟩
    obtain rfl := Option.some.inj (hregister.symm.trans hr)
    simp [hv]
  stack := by simp [h.stack]
  slot := by simp [h.slot]

namespace Lowering

open Builder

theorem exists_symbols_of_defineParameters {s s' : Builder} {b : BlockId} {B : Block} {n : Nat}
    {ps : List Slot} {ts : List ValueType} {u : Unit} (hlen : ts.length = ps.length)
    (hB : s.graph.block? b = some B)
    (h : Runs (defineParameters b n (ps.zipWith (fun p t => Parameter.mk t (some p.name)) ts)) s u s') :
    ∃ symbols, s'.graph.block? b = some (B.withLocals { B.locals with symbols }) ∧
      symbols.keys = B.locals.symbols.keys ++ ps.map (·.name) ∧
      ∀ e ∈ symbols.entries, e ∈ B.locals.symbols.entries ∨
        ∃ k p, ps[k]? = some p ∧ e.1 = p.name ∧ e.2.register = some ⟨n + k⟩ := by
  induction ps generalizing s B n ts with
  | nil =>
    obtain ⟨-, rfl⟩ := Runs.pure_iff.1 h
    exact ⟨B.locals.symbols, hB, by simp, fun e he => .inl he⟩
  | cons p ps ih =>
    obtain ⟨t, ts, rfl⟩ := List.exists_cons_of_length_eq_add_one hlen
    obtain ⟨_, s₁, hdefine, hrest⟩ := Runs.bind_iff.1 h
    obtain ⟨B', symbols, hB', hsymbols, rfl⟩ := runs_define.1 hdefine
    obtain rfl := Option.some.inj (hB.symm.trans hB')
    have hentries := SymbolTable.define_entries hsymbols
    obtain ⟨symbols', hend, hkeys, hsymbols'⟩ := ih (by simpa using hlen) (updateBlock_self hB _) hrest
    refine ⟨symbols', hend, ?_, fun e he => ?_⟩
    · rw [hkeys]
      simp [OrderedMap.keys, hentries]
    · rcases hsymbols' e he with he | ⟨k, q, hk, hname, hregister⟩
      · rw [Block.withLocals_locals, hentries] at he
        rcases List.mem_append.1 he with he | he
        · exact .inl he
        · obtain rfl := List.mem_singleton.1 he
          exact .inr ⟨0, p, rfl, rfl, rfl⟩
      · exact .inr ⟨k + 1, q, hk, hname, by rw [hregister, Nat.add_assoc, Nat.add_comm 1 k]⟩

def Prepared (s : State) (d : FunctionDecl) (e : FunctionEntry) : Prop :=
  s.functions[d.id.index]? = some e ∧
    ∃ E, s.graph.block? e.entry = some E ∧ E.Prepared d.parameters

variable {fs : List FunctionId} {cs : List ClassId} {X Y : List BlockId} {s s' s₁ s₂ : State}
  {d : FunctionDecl} {e : FunctionEntry}

theorem Prepared.shift (h : Prepared s d e) (hs : Shifts fs cs X s Y s') (hd : d.id ∉ fs)
    (he : e.entry ∉ X) : Prepared s' d e := by
  obtain ⟨hentry, E, hE, hprepared⟩ := h
  refine ⟨?_, E, hs.keeps he hE, hprepared⟩
  rw [hs.functions d.id.index fun f hf hi => hd (FunctionId.index_inj.1 hi ▸ hf), hentry]

theorem prepared_of_declareFunction {u : Unit} (h : Runs (declareFunction d) s u s') :
    ∃ e, Prepared s' d e := by
  obtain ⟨result, t₁, returns, t₂, types, t₃, entry, t₄, t₅, t₆, -, -, htypes, hadd, hset, hdefine,
    rfl⟩ := declareFunction_cases h
  obtain ⟨rfl, rfl⟩ := runs_addBlock.1 hadd
  obtain ⟨⟨B, hB⟩, rfl⟩ := runs_setLocals.1 hset
  have hlen : types.length = d.parameters.length := by
    have htypes := loweredAll?_eq_some.1 (loweredAll?_of_runs _ _ htypes)
    simpa using htypes.length_eq.symm
  obtain ⟨symbols, hE, hkeys, hsymbols⟩ :=
    exists_symbols_of_defineParameters hlen (updateBlock_self hB _) hdefine
  rw [appendBlock_block?, if_pos rfl] at hB
  obtain rfl := Option.some.inj hB
  refine ⟨⟨d.name, t₃.graph.nextId, returns⟩, by simp, _, hE, rfl, by simp [hlen], rfl, rfl, ?_, ?_⟩
  · have hnodup : symbols.keys.Nodup := symbols.nodup
    rw [hkeys] at hnodup
    exact hnodup
  · intro e he
    rcases hsymbols e he with he | ⟨k, p, hk, hname, hregister⟩
    · exact (List.not_mem_nil he).elim
    · exact ⟨k, p, hk, hname, by rw [hregister, Nat.add_comm]⟩

theorem prepared_of_declareFunctions {ds : List FunctionDecl} {u : PUnit}
    (hnodup : (ds.map (·.id)).Nodup) (h : Runs (ds.forM declareFunction) s u s') :
    ∀ d ∈ ds, ∃ e, Prepared s' d e := by
  induction ds generalizing s with
  | nil => simp
  | cons d ds ih =>
    rw [List.map_cons, List.nodup_cons] at hnodup
    obtain ⟨s₁, hd, hds⟩ := Runs.forM_cons.1 h
    obtain ⟨e, he⟩ := prepared_of_declareFunction hd
    obtain ⟨es, hshift, -⟩ := shifts_declareFunctions hnodup.2 hds
    exact List.forall_mem_cons.2 ⟨⟨e, he.shift hshift hnodup.1 (by simp)⟩, ih hnodup.2 hds⟩

theorem Prepared.defineFields {classes : List ClassDecl} {u : PUnit} (h : Prepared s d e)
    (hrun : Runs (classes.forM defineFields) s u s') : Prepared s' d e := by
  induction classes generalizing s with
  | nil =>
    obtain rfl := Runs.forM_nil.1 hrun
    exact h
  | cons c classes ih =>
    obtain ⟨s₁, hc, hrest⟩ := Runs.forM_cons.1 hrun
    simp only [Lowering.defineFields, Runs.bind_iff, runs_classLayout, Runs.lift_build_iff,
      runs_defineClass] at hc
    obtain ⟨fields, _, htypes, l, _, ⟨-, rfl⟩, _, ⟨-, rfl⟩, rfl⟩ := hc
    obtain ⟨hentry, hblock⟩ := h.shift (settles_lowerTypes _ htypes).shifts (by simp) (by simp)
    refine ih ?_ hrest
    exact ⟨hentry, hblock⟩

variable {w : View I} {before : Contexts I} {σ : I.State} {y : (I.machine L).Point} {n : Nat}
  {vs vs₀ : I.Variables} {o : Option BlockId}

theorem Simulates.inCall {α : Type} {x : I.Eval α}
    {Q : α → I.Variables → I.State → (I.machine L).Point → Prop} (h : Simulates L n y (x vs σ) Q) :
    Simulates L n y (Interpretation.inCall vs x vs₀ σ) fun a vs' σ' y' =>
      vs' = vs₀ ∧ ∃ vs'', Q a vs'' σ' y' := by
  rw [Interpretation.inCall]
  cases hx : x vs σ with
  | done a vs' σ' =>
    rw [hx] at h
    obtain ⟨k, z, hgoes, hz⟩ := h
    exact ⟨k, z, hgoes, rfl, vs', hz⟩
  | failed σ' =>
    rw [hx] at h
    exact h
  | unfinished σ' =>
    rw [hx] at h
    exact h

section Enacts

variable {q : Program} {call : FunctionDecl → List I.Value → I.Eval (Option I.Value)}

variable (L n q call) in
def Enacts (d : FunctionDecl) : Prop :=
  ∃ e, L.entry? d.id = some e ∧
    ∀ (args : List I.Value) (vs : I.Variables) (σ : I.State) (cs : Contexts I) (a : Nat) (x : Word I)
      (c : BlockId), (Memory.mk σ cs).field? a 0 = some x → (I.machine L).target x = some c →
      Simulates L (n + 1) (.entry e (.context a :: args.map .plain) ⟨σ, cs⟩)
        ((if args.length = d.parameters.length then
          Interpretation.inCall (parameters d.parameters args) do
            let exit ← execScope q call n d.body
            returned exit
          else fail) vs σ)
        fun r vs' σ' y => vs' = vs ∧ ∃ cs', cs <+: cs' ∧
          y = .entry c (.context a :: r.toList.map .plain) ⟨σ', cs'⟩

theorem simulates_returned {frame : Option Frame} {exit : I.Exit} {a : Nat} {x : Word I} {c : BlockId}
    (hx : before[a]?.bind (· 0) = some x) (hc : (I.machine L).target x = some c)
    (hslot : w.slot = some a) (hloops : s.loops = [])
    (hend : ∀ b ∈ o, ∃ u s', Runs (lowerReturn frame b none) s u s' ∧ Links L s')
    (h : ExitsScope L s o w before exit vs σ y) :
    Simulates L (n + 1) y (returned exit vs σ) fun r _ σ' y' => ∃ cs, before <+: cs ∧
      y' = .entry c (.context a :: r.toList.map .plain) ⟨σ', cs⟩ := by
  have hresumes {σ' : I.State} {y' : (I.machine L).Point} {v : Option I.Value}
      (h : Resumes L before σ' y' w.slot v) : ∃ cs, before <+: cs ∧
        y' = .entry c (.context a :: v.toList.map .plain) ⟨σ', cs⟩ := by
    obtain ⟨a', x', c', cs, ha, hx', hc', hcs, rfl⟩ := h
    obtain rfl := Option.some.inj (hslot.symm.trans ha)
    obtain rfl := Option.some.inj (hx.symm.trans hx')
    obtain rfl := Option.some.inj (hc.symm.trans hc')
    exact ⟨cs, hcs, rfl⟩
  obtain ⟨vs', ⟨hvs, hexit⟩, rfl⟩ := h
  cases exit with
  | normal =>
    obtain ⟨b, hb, hy⟩ := hexit
    obtain ⟨u, s', hreturn, hL⟩ := hend b hb
    have hcaller : HasCaller L before w.slot := by
      rintro a' ha
      obtain rfl := Option.some.inj (hslot.symm.trans ha)
      exact ⟨x, c, hx, hc⟩
    obtain ⟨z, hgoes, hz⟩ := goes_return (w := { w with vars := vs' }) hreturn hL hcaller hy
    exact ⟨1, z, hgoes, hresumes hz⟩
  | ret v => exact .done (hresumes hexit)
  | jump j =>
    rw [hloops] at hexit
    exact hexit.elim

theorem enacts_of_performs {frame : Option Frame} (hd : Prepared s d e)
    (hbody : Performs L n s e.entry (execScope q call n d.body) (ExitsScope L s₁ o))
    (hend : ∀ b ∈ o, ∃ u s', Runs (lowerReturn frame b none) s₁ u s' ∧ Links L s')
    (hloops : s₁.loops = []) (hL : Links L s) : Enacts L n q call d := by
  obtain ⟨hentry, E, hE, hprepared⟩ := hd
  refine ⟨e.entry, hL.entry _ e hentry, fun args vs σ cs a x c hx hc => ?_⟩
  by_cases hargs : args.length = d.parameters.length
  · rw [if_pos hargs]
    have hreceives : s.graph.Receives e.entry (.context a :: args.map .plain)
        ⟨parameters d.parameters args, [], some a⟩ := ⟨E, hE, hprepared.code, hprepared.mirrors hargs a⟩
    have hcaller : HasCaller L cs (some a) := by
      rintro _ ⟨⟩
      exact ⟨x, c, hx, hc⟩
    have hcalled : Simulates L (n + 1) (.entry e.entry (.context a :: args.map .plain) ⟨σ, cs⟩)
        ((do
          let exit ← execScope q call n d.body
          returned exit) (parameters d.parameters args) σ) fun r _ σ' y' => ∃ cs', cs <+: cs' ∧
            y' = .entry c (.context a :: r.toList.map .plain) ⟨σ', cs'⟩ :=
      Simulates.bind (hbody.entry hL.graph hcaller hreceives List.prefix_rfl)
        fun exit vs' σ' y' hexit => simulates_returned hx hc rfl hloops hend hexit
    refine (Simulates.inCall hcalled).imp ?_
    rintro r vs' σ' y' ⟨rfl, -, hy'⟩
    exact ⟨rfl, hy'⟩
  · rw [if_neg hargs]
    obtain ⟨E', hE', hext⟩ := hL.graph _ E hE
    refine ⟨0, _, cs, .refl _, .arguments hE' ?_⟩
    simp [hext.parameters, hprepared.count, hargs]

end Enacts

end Lowering

end BlockGraph
