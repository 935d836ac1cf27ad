import BlockGraph.Proofs.Lowering.Expressions
import BlockGraph.Proofs.Simulation.Blocks

namespace BlockGraph

open Interpretation Lowering

variable {I : Interpretation} {L : Lowered}

namespace Interpretation

def linear (I : Interpretation) (k : Kind) :
    LinearOp → List I.Value → I.State → Option (I.Value × I.State)
  | .unary op, [v] => I.unary op k v
  | .binary op, [v, w] => I.binary op k v w
  | _, _ => fun _ => none

def Place.form : I.Place → Lowering.Place
  | .var name => .var name
  | .field _ index => .field index
  | .element _ _ => .element

def Place.operands : I.Place → List I.Value
  | .var _ => []
  | .field object _ => [object]
  | .element array index => [array, index]

end Interpretation

theorem Reads.linear {regs : List (Word I)} {rs : List Register} {vs : List I.Value}
    (h : Reads regs rs (vs.map .plain)) {op : LinearOp} {o : Operation}
    (ho : Operation.linear op rs = .ok o) (t : ValueType) (m : Memory I) :
    Machine.value (M := I.machine L) ⟨o, t⟩ regs m = m.yield (I.linear t.kind op vs m.own) := by
  have hlen := h.length_eq
  unfold Operation.linear at ho
  split at ho
  case h_1 =>
    obtain rfl := Except.ok.inj ho
    obtain ⟨v, rfl⟩ := List.length_eq_one_iff.1 (by simpa using hlen.symm)
    rw [Reads.value h rfl]
    rfl
  case h_8 => simp at ho
  all_goals
    obtain rfl := Except.ok.inj ho
    obtain ⟨v, w, rfl⟩ := List.length_eq_two.1 (by simpa using hlen.symm)
    rw [Reads.value h rfl]
    rfl

namespace Graph

variable {g : Graph} {b : BlockId} {w : View I} {before : Contexts I} {σ : I.State}
  {v : Option I.Value} {y : (I.machine L).Point}

theorem Yields.forget (h : g.Yields b w before σ v y) : g.Yields b w before σ none y := by
  obtain ⟨regs, cs, hy, hw, hcs, -⟩ := h
  exact ⟨regs, cs, hy, hw, hcs, by simp⟩

theorem Yields.unlessVoid {v : I.Value} (h : g.Yields b w before σ (some v) y) (t : SourceType) :
    g.Yields b w before σ (if t.isVoid then none else some v) y := by
  split
  · exact h.forget
  · exact h

end Graph

namespace Builder

variable {s s' : Builder} {b : BlockId} {r : Register} {u : Unit} {regs : List (Word I)}
  {w : View I} {before cs : Contexts I} {σ : I.State} {y : (I.machine L).Point} {n : Nat}

theorem yields_pushLast (h : Runs (pushLast b) s u s') {v : I.Value}
    (hy : s.graph.Yields b w before σ (some v) y) :
    s'.graph.Yields b { w with operands := w.operands ++ [v] } before σ none y := by
  obtain ⟨regs, cs, rfl, hw, hcs, hlast⟩ := hy
  exact ⟨regs, cs, rfl, mirrors_pushLast h hw (hlast v rfl), hcs, by simp⟩

theorem simulates_operation {op : Operation} {t : ValueType} (h : Runs (emit b op t) s r s')
    (hL : s'.graph.Extends L.graph) (hb : s.graph.Mirrors b regs w) (hcs : before <+: cs)
    {f : I.State → Option (I.Value × I.State)}
    (hf : Machine.value (M := I.machine L) ⟨op, t⟩ regs ⟨σ, cs⟩ = (Memory.mk σ cs).yield (f σ)) :
    Simulates L n (.inside b regs ⟨σ, cs⟩) (perform f w.vars σ) fun v vs σ' y =>
      vs = w.vars ∧ s'.graph.Yields b w before σ' (some v) y := by
  refine (simulates_emit h hL hb .plain hf).imp ?_
  rintro v vs σ' y ⟨rfl, rfl, hw⟩
  refine ⟨rfl, _, cs, rfl, hw, hcs, ?_⟩
  rintro _ ⟨⟩
  exact List.getLast?_concat

theorem yields_copy {r' : Register} (h : Runs (copy b r) s r' s') (hL : s'.graph.Extends L.graph)
    (hb : s.graph.Mirrors b regs w) (hcs : before <+: cs) {v : I.Value}
    (hv : regs[r.index]? = some (.plain v)) :
    ∃ y, L.graph.Goes (M := I.machine L) 0 (.inside b regs ⟨σ, cs⟩) y ∧
      s'.graph.Yields b w before σ (some v) y := by
  obtain ⟨hgoes, hw⟩ := goes_copy h hL hb hv (m := ⟨σ, cs⟩)
  refine ⟨_, hgoes, _, cs, rfl, hw, hcs, ?_⟩
  rintro _ ⟨⟩
  exact List.getLast?_concat

end Builder

namespace Lowering

open Builder

variable {s s' : Builder} {b : BlockId} {r : Register} {u : Unit} {regs : List (Word I)}
  {w : View I} {before cs : Contexts I} {σ : I.State} {y : (I.machine L).Point} {n : Nat}
  {t : ValueType}

theorem Leads.extends {α : Type} {x : BuildM α} (hx : Stays b x) {a : α} (h : Runs x s a s') :
    s.graph.Extends s'.graph :=
  (hx h).toMoves.graph_extends

theorem reads_readSymbol {name : String} (h : Runs (readSymbol b name) s r s')
    (hb : s.graph.Mirrors b regs w) :
    s' = s ∧ ∃ v, w.vars name = some (some v) ∧ regs[r.index]? = some (.plain v) := by
  refine ⟨readSymbol_state h, ?_⟩
  obtain ⟨B, hB, hw⟩ := hb
  simp only [readSymbol, Runs.bind_iff, runs_locals] at h
  obtain ⟨_, _, ⟨B', hB', rfl, rfl⟩, h⟩ := h
  obtain rfl := Option.some.inj (hB.symm.trans hB')
  split at h
  case h_1 hget =>
    obtain ⟨rfl, -⟩ := Runs.pure_iff.1 h
    exact hw.register? (by simp [SymbolTable.register?, hget])
  all_goals simp at h

theorem simulates_load {place : I.Place} (h : Runs (load b place.form t) s u s')
    (hL : s'.graph.Extends L.graph) {ops : List I.Value} (hops : w.operands = ops ++ place.operands)
    (hy : s.graph.Yields b w before σ none y) :
    Simulates L n y (loadPlace t.kind place w.vars σ) fun v vs σ' y =>
      vs = w.vars ∧ s'.graph.Yields b w before σ' (some v) y := by
  obtain ⟨regs, cs, rfl, hw, hcs, -⟩ := hy
  cases place with
  | var name =>
    simp only [load, Place.form, Runs.bind_iff, Runs.pure_iff] at h
    obtain ⟨r, _, hread, _, _, hcopy, -, rfl⟩ := h
    obtain ⟨rfl, v, hv, hr⟩ := reads_readSymbol hread hw
    obtain ⟨y, hgoes, hyields⟩ := yields_copy hcopy hL hw hcs hr (σ := σ)
    simp only [loadPlace, readVar, hv]
    exact ⟨0, y, hgoes, rfl, hyields⟩
  | field object index =>
    simp only [load, Place.form, Runs.bind_iff, Runs.pure_iff] at h
    obtain ⟨r, _, hpeek, _, _, hemit, -, rfl⟩ := h
    obtain ⟨rfl, hr⟩ := reads_peek hpeek hw (v := object) (by simp [hops, Place.operands])
    have hreads : Reads regs (Operation.getField r index).operands [.plain object] := .cons hr .nil
    exact simulates_operation hemit hL hw hcs (hreads.value rfl t _)
  | element array index =>
    simp only [load, Place.form, Runs.bind_iff, Runs.pure_iff] at h
    obtain ⟨r, _, hpeek, r', _, hpeek', _, _, hemit, -, rfl⟩ := h
    obtain ⟨rfl, hr⟩ := reads_peek hpeek hw (v := array) (by simp [hops, Place.operands])
    obtain ⟨rfl, hr'⟩ := reads_peek hpeek' hw (v := index) (by simp [hops, Place.operands])
    have hreads : Reads regs (Operation.getIndex r r').operands [.plain array, .plain index] :=
      .cons hr (.cons hr' .nil)
    exact simulates_operation hemit hL hw hcs (hreads.value rfl t _)

theorem simulates_change {op : Operation} (h : Runs (emit b op t) s r s')
    (hL : s'.graph.Extends L.graph) (hb : s.graph.Mirrors b regs w) {f : I.State → Option I.State}
    (hf : Machine.value (M := I.machine L) ⟨op, t⟩ regs ⟨σ, cs⟩ = (Memory.mk σ cs).change (f σ)) :
    Simulates L n (.inside b regs ⟨σ, cs⟩) (Interpretation.update f w.vars σ) fun _ vs σ' y =>
      vs = w.vars ∧ y = .inside b (regs ++ [.nothing]) ⟨σ', cs⟩ ∧
        s'.graph.Mirrors b (regs ++ [.nothing]) w := by
  refine simulates_emit h hL hb (fun _ => .nothing) ?_
  rw [hf, Option.map_map]
  rfl

theorem simulates_store {place : I.Place} (h : Runs (store b place.form r) s u s')
    (hL : s'.graph.Extends L.graph) {ops : List I.Value} (hops : w.operands = ops ++ place.operands)
    (hw : s.graph.Mirrors b regs w) {v : I.Value} (hv : regs[r.index]? = some (.plain v)) :
    Simulates L n (.inside b regs ⟨σ, cs⟩) (storePlace v place w.vars σ) fun _ vs σ' y =>
      w.vars.Same vs ∧ ∃ more, y = .inside b (regs ++ more) ⟨σ', cs⟩ ∧
        s'.graph.Mirrors b (regs ++ more) { w with vars := vs, operands := ops } ∧
        ∀ name, place = .var name → more = [] := by
  cases place with
  | var name =>
    obtain ⟨hsome, hw'⟩ := mirrors_rebind h hw hv
    obtain rfl : w.operands = ops := by simpa [Place.operands] using hops
    rw [storePlace, assignVar_of_isSome hsome]
    exact ⟨0, _, .refl _, .update hsome _, [], by simp, by simpa using hw', by simp⟩
  | field object index =>
    simp only [store, Place.form, Runs.bind_iff, Runs.pure_iff] at h
    obtain ⟨o, t₁, hpop, _, _, hemit, -, rfl⟩ := h
    obtain ⟨hw', ho⟩ := mirrors_pop hpop hw hops
    have hreads : Reads regs (Operation.setField o index r).operands [.plain object, .plain v] :=
      .cons ho (.cons hv .nil)
    refine (simulates_change hemit hL hw' (hreads.value rfl _ _)).imp ?_
    rintro _ _ σ' _ ⟨rfl, rfl, hmirrors⟩
    exact ⟨.refl _, _, rfl, hmirrors, by simp⟩
  | element array index =>
    simp only [store, Place.form, Runs.bind_iff] at h
    obtain ⟨rs, t₁, hpop, h⟩ := h
    obtain ⟨hw', hrs⟩ := mirrors_popMany hpop hw hops rfl
    obtain ⟨a, i, rfl⟩ := List.length_eq_two.1 hrs.length_eq
    simp only [Runs.bind_iff, Runs.pure_iff] at h
    obtain ⟨_, _, hemit, -, rfl⟩ := h
    have hreads : Reads regs (Operation.setIndex a i r).operands
        [.plain array, .plain index, .plain v] := List.rel_append hrs (.cons hv .nil)
    refine (simulates_change hemit hL hw' (hreads.value rfl _ _)).imp ?_
    rintro _ _ σ' _ ⟨rfl, rfl, hmirrors⟩
    exact ⟨.refl _, _, rfl, hmirrors, by simp⟩

theorem one_eq {o : Option CastOp} (h : oneCast t = .ok o) :
    one (I := I) t.kind =
      match o with
      | none => pure (I.literal (.u8 1))
      | some op => perform (I.cast op t.kind (I.literal (.u8 1))) := by
  cases t with
  | prim p => cases p <;> simp [oneCast] at h <;> subst h <;> rfl
  | _ => simp [oneCast] at h

theorem simulates_emitOne (h : Runs (emitOne b t) s u s') (hL : s'.graph.Extends L.graph)
    (hy : s.graph.Yields b w before σ none y) :
    Simulates L n y (one t.kind w.vars σ) fun v vs σ' y =>
      vs = w.vars ∧ s'.graph.Yields b w before σ' (some v) y := by
  obtain ⟨regs, cs, rfl, hw, hcs, -⟩ := hy
  simp only [emitOne, Runs.bind_iff, Runs.lift_except_iff] at h
  obtain ⟨r, t₁, hemit, o, _, ⟨ho, rfl⟩, h⟩ := h
  have hr := register_emit hemit hw
  rw [one_eq ho]
  cases o with
  | none =>
    obtain ⟨-, rfl⟩ := Runs.pure_iff.1 h
    obtain ⟨hgoes, hw'⟩ := goes_emit (m := ⟨σ, cs⟩) hemit hL hw rfl
    refine ⟨0, _, hgoes, rfl, _, cs, rfl, hw', hcs, ?_⟩
    rintro _ ⟨⟩
    exact List.getLast?_concat
  | some op =>
    simp only [Runs.bind_iff, Runs.pure_iff] at h
    obtain ⟨_, _, hcast, -, rfl⟩ := h
    obtain ⟨hgoes, hw'⟩ := goes_emit (m := ⟨σ, cs⟩) hemit
      ((Leads.extends (stays_emit (by rfl)) hcast).trans hL) hw rfl
    have hreads : Reads (regs ++ [.plain (I.literal (.u8 1))]) (Operation.cast op r).operands
        [.plain (I.literal (.u8 1))] := .cons (by simp [hr]) .nil
    exact (simulates_operation hcast hL hw' hcs (hreads.value rfl t _)).goes hgoes

theorem simulates_update {place : I.Place} {op : BinaryOp} {yieldsOld : Bool}
    (h : Runs (Lowering.update b place.form op t yieldsOld) s u s') (hL : s'.graph.Extends L.graph)
    {ops : List I.Value} {old v : I.Value} (hops : w.operands = ops ++ place.operands ++ [old, v])
    (hy : s.graph.Yields b w before σ none y) :
    Simulates L n y ((do
        let new ← perform (I.binary op t.kind old v)
        storePlace new place
        return if yieldsOld then old else new : I.Eval I.Value) w.vars σ) fun x vs σ' y =>
      w.vars.Same vs ∧
        s'.graph.Yields b { w with vars := vs, operands := ops } before σ' (some x) y := by
  obtain ⟨regs, cs, rfl, hw, hcs, -⟩ := hy
  simp only [Lowering.update, Runs.bind_iff] at h
  obtain ⟨rs, t₁, hpop, h⟩ := h
  obtain ⟨hw₁, hrs⟩ := mirrors_popMany hpop hw hops rfl
  obtain ⟨a, i, rfl⟩ := List.length_eq_two.1 hrs.length_eq
  simp only [Runs.bind_iff, Runs.lift_except_iff, Runs.pure_iff] at h
  obtain ⟨o, _, ⟨ho, rfl⟩, r, t₂, hemit, _, t₃, hstore, _, _, hcopy, -, rfl⟩ := h
  have hL₃ := (Leads.extends stays_copy hcopy).trans hL
  have hL₂ := (Leads.extends stays_store hstore).trans hL₃
  have hr := register_emit hemit hw₁
  refine Simulates.bind (simulates_emit hemit hL₂ hw₁ .plain (hrs.linear ho t ⟨σ, cs⟩)) ?_
  rintro new _ σ₁ _ ⟨rfl, rfl, hw₂⟩
  have hnew : (regs ++ [Word.plain new])[r.index]? = some (.plain new) := by simp [hr]
  refine Simulates.bind (simulates_store hstore hL₃ rfl hw₂ hnew) ?_
  rintro _ vs σ₂ _ ⟨hkeeps, more, rfl, hw₃, -⟩
  have hcopied : (regs ++ [Word.plain new] ++ more)[(if yieldsOld then a else r).index]? =
      some (.plain (if yieldsOld then old else new)) := by
    cases yieldsOld with
    | true => exact getElem?_append_of_some (getElem?_append_of_some (List.forall₂_cons.1 hrs).1 _) _
    | false => exact getElem?_append_of_some hnew _
  obtain ⟨y, hgoes, hyields⟩ := yields_copy (σ := σ₂) hcopy hL hw₃ hcs hcopied
  exact ⟨0, y, hgoes, hkeeps, hyields⟩

theorem simulates_storeFields {object : Register} {k : Nat} {rs : List Register}
    (h : Runs (storeFields b object k rs) s u s') (hL : s'.graph.Extends L.graph)
    (hw : s.graph.Mirrors b regs w) {o : I.Value} (ho : regs[object.index]? = some (.plain o))
    {vs : List I.Value} (hrs : Reads regs rs (vs.map .plain)) :
    Simulates L n (.inside b regs ⟨σ, cs⟩) (fill o k vs w.vars σ) fun _ vs' σ' y =>
      vs' = w.vars ∧ ∃ more, y = .inside b (regs ++ more) ⟨σ', cs⟩ ∧
        s'.graph.Mirrors b (regs ++ more) w := by
  induction rs generalizing s regs σ k vs with
  | nil =>
    obtain rfl : vs = [] := by simpa using hrs
    obtain ⟨-, rfl⟩ := Runs.pure_iff.1 h
    exact ⟨0, _, .refl _, rfl, [], by simp, by simpa using hw⟩
  | cons r rs ih =>
    obtain ⟨_, _, hr, hrest, heq⟩ := List.forall₂_cons_left_iff.1 hrs
    obtain ⟨v, vs, rfl, rfl, rfl⟩ := List.map_eq_cons_iff.1 heq
    simp only [storeFields, Runs.bind_iff] at h
    obtain ⟨_, t₁, hemit, h⟩ := h
    have hreads : Reads regs (Operation.setField object k r).operands [.plain o, .plain v] :=
      .cons ho (.cons hr .nil)
    refine Simulates.bind (simulates_change hemit ((Leads.extends stays_storeFields h).trans hL) hw
      (hreads.value rfl _ _)) ?_
    rintro _ _ σ₁ _ ⟨rfl, rfl, hw₁⟩
    refine (ih h hw₁ (getElem?_append_of_some ho _) (Reads.append hrest _)).imp ?_
    rintro _ _ σ₂ _ ⟨rfl, more, rfl, hw₂⟩
    exact ⟨rfl, .nothing :: more, by simp, by simpa using hw₂⟩

theorem simulates_construct {c : ClassId} {l : LayoutId} (hclass : L.class? l = some c)
    {args ops : List I.Value} (h : Runs (construct b l args.length) s u s')
    (hL : s'.graph.Extends L.graph) (hops : w.operands = ops ++ args)
    (hy : s.graph.Yields b w before σ none y) :
    Simulates L n y ((do
        let object ← perform (I.new c)
        fill object 0 args
        return object : I.Eval I.Value) w.vars σ) fun x vs σ' y =>
      vs = w.vars ∧ s'.graph.Yields b { w with operands := ops } before σ' (some x) y := by
  obtain ⟨regs, cs, rfl, hw, hcs, -⟩ := hy
  simp only [construct, Runs.bind_iff, Runs.pure_iff] at h
  obtain ⟨rs, t₁, hpop, object, t₂, hemit, _, t₃, hstore, _, _, hcopy, -, rfl⟩ := h
  have hL₃ := (Leads.extends stays_copy hcopy).trans hL
  have hL₂ := (Leads.extends stays_storeFields hstore).trans hL₃
  obtain ⟨hw₁, hrs⟩ := mirrors_popMany hpop hw hops rfl
  have hr := register_emit hemit hw₁
  have hnew : Machine.value (M := I.machine L) ⟨.new l, .object l⟩ regs ⟨σ, cs⟩ =
      (Memory.mk σ cs).yield (I.new c σ) := by
    rw [Reads.value .nil rfl, execute_new hclass]
  refine Simulates.bind (simulates_emit hemit hL₂ hw₁ .plain hnew) ?_
  rintro o _ σ₁ _ ⟨rfl, rfl, hw₂⟩
  have ho : (regs ++ [Word.plain o])[object.index]? = some (.plain o) := by simp [hr]
  refine Simulates.bind (simulates_storeFields hstore hL₃ hw₂ ho (hrs.append _)) ?_
  rintro _ _ σ₂ _ ⟨rfl, more, rfl, hw₃⟩
  obtain ⟨y, hgoes, hyields⟩ := yields_copy (σ := σ₂) hcopy hL hw₃ hcs
    (getElem?_append_of_some ho more)
  exact ⟨0, y, hgoes, rfl, hyields⟩

end Lowering

end BlockGraph
