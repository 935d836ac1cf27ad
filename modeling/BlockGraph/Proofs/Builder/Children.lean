import BlockGraph.Proofs.Builder.Edges

namespace BlockGraph

namespace Graph

def allHold (g : Graph) (bs : List BlockId) (name : String) : Bool :=
  bs.all fun b => (g.block? b).any (·.locals.holds name)

def someHold (g : Graph) (bs : List BlockId) (name : String) : Bool :=
  bs.any fun b => (g.block? b).any (·.locals.holds name)

end Graph

namespace Inflow

def block (i : Inflow) (id : BlockId) : Block where
  id
  parameters := i.parameters
  signature := i.signature
  locals := i.locals

theorem block_parameterTypes (i : Inflow) (id : BlockId) :
    (i.block id).parameterTypes = i.slot.toList ++ i.carried.map (·.2.type) ++ i.stack := by
  simp [Block.parameterTypes, block, parameters, Function.comp_def]

structure Gathers (i : Inflow) (g : Graph) (context : BlockId) (preds : List BlockId) : Prop where
  context : ∃ C, g.block? context = some C ∧ i.symbols = C.locals.symbols ∧
    C.HasTypes C.locals.returnSlot.toList i.slot.toList
  first : ∃ p P, preds.head? = some p ∧ g.block? p = some P ∧ P.HasTypes P.locals.stack i.stack
  depth : ∀ p ∈ preds, ∃ P, g.block? p = some P ∧ P.locals.stack.length = i.stack.length
  held : i.held = g.allHold preds

/-! What the registers of a new block stand for. The list `xs` has one element for each parameter:
it may hold their types, or values that are passed for them. -/

section Parameters

variable {α : Type}

theorem forall₂_numberFrom (held : String → Bool) (f : String × Symbol → α) (rest : List α) :
    ∀ (entries : List (String × Symbol)) (before : List α),
      List.Forall₂ (fun e e' => e'.1 = e.1 ∧ e'.2.type = e.2.type ∧
        e'.2.register.isSome = held e.1 ∧ ∀ r, e'.2.register = some r →
          (before ++ (entries.filter (held ·.1)).map f ++ rest)[r.index]? = some (f e))
        entries ((entries.map Prod.fst).zip (numberFrom held before.length entries))
  | [], _ => .nil
  | (name, x) :: entries, before => by
    rw [numberFrom]
    by_cases hname : held name = true
    · simp only [hname, if_true, List.map_cons, List.zip_cons_cons, List.filter_cons]
      refine .cons ⟨rfl, rfl, by simp [hname], fun r hr => ?_⟩ ?_
      · obtain rfl := Option.some.inj hr
        simp
      · have htail := forall₂_numberFrom held f rest entries (before ++ [f (name, x)])
        simpa using htail
    · simp only [hname, Bool.false_eq_true, if_false, List.map_cons, List.zip_cons_cons,
        List.filter_cons]
      exact .cons ⟨rfl, rfl, by simpa using hname, by simp⟩
        (forall₂_numberFrom held f rest entries before)

variable (i : Inflow) (f : String × Symbol → α) {slot stack : List α}

variable (stack) in
theorem forall₂_symbols (hslot : slot.length = i.slot.toList.length) :
    List.Forall₂ (fun e e' => e'.1 = e.1 ∧ e'.2.type = e.2.type ∧
      e'.2.register.isSome = i.held e.1 ∧ ∀ r, e'.2.register = some r →
        (slot ++ i.carried.map f ++ stack)[r.index]? = some (f e))
      i.symbols.entries i.locals.symbols.entries := by
  have h := forall₂_numberFrom i.held f stack i.symbols.entries slot
  rw [hslot] at h
  exact h

theorem forall₂_stack (hslot : slot.length = i.slot.toList.length)
    (hstack : stack.length = i.stack.length) :
    List.Forall₂ (fun r x => (slot ++ i.carried.map f ++ stack)[r.index]? = some x)
      i.locals.stack stack := by
  rw [List.forall₂_iff_get]
  refine ⟨by simp [locals, hstack], fun n hn hn' => ?_⟩
  simp only [locals, List.get_eq_getElem, List.getElem_map, List.getElem_range]
  rw [List.getElem?_append_right (by simp [hslot])]
  have hlt : n < stack.length := hn'
  simp [hslot, List.getElem?_eq_getElem hlt]

theorem forall₂_slot (hslot : slot.length = i.slot.toList.length) :
    List.Forall₂ (fun r x => (slot ++ i.carried.map f ++ stack)[r.index]? = some x)
      i.locals.returnSlot.toList slot := by
  cases hi : i.slot with
  | none =>
    obtain rfl : slot = [] := by simpa [hi] using hslot
    simp [locals, hi]
  | some t =>
    obtain ⟨x, rfl⟩ : ∃ x, slot = [x] := List.length_eq_one_iff.1 (by simpa [hi] using hslot)
    simp [locals, hi]

end Parameters

theorem block_typeOf? {i : Inflow} {id : BlockId} {r : Register} {t : ValueType}
    (h : (i.slot.toList ++ i.carried.map (·.2.type) ++ i.stack)[r.index]? = some t) :
    (i.block id).typeOf? r = some t :=
  Block.typeOf?_of_parameterTypes (by rw [block_parameterTypes]; exact h)

theorem block_slot (i : Inflow) (id : BlockId) :
    (i.block id).HasTypes i.locals.returnSlot.toList i.slot.toList :=
  (i.forall₂_slot (·.2.type) rfl).imp fun _ _ hr => block_typeOf? hr

end Inflow

namespace Builder

variable {s s' : Builder} {b child context : BlockId} {preds : List BlockId} {u : Unit} {B : Block}
  {rs : List Register} {ts : List ValueType}

def addChild (s : Builder) (preds : List BlockId) (i : Inflow) : Builder :=
  { s.appendBlock (i.block s.graph.nextId) with
    diagnostics := s.diagnostics ++
      (i.symbols.keys.filter fun n => s.graph.someHold preds n && !i.held n).map .lossOfValue }

theorem addChild_graph (s : Builder) (preds : List BlockId) (i : Inflow) :
    (s.addChild preds i).graph = (s.appendBlock (i.block s.graph.nextId)).graph := rfl

@[simp] theorem addChild_block? (s : Builder) (preds : List BlockId) (i : Inflow) (c : BlockId) :
    (s.addChild preds i).graph.block? c =
      if c = s.graph.nextId then some (i.block s.graph.nextId) else s.graph.block? c :=
  s.appendBlock_block? c _

@[simp] theorem runs_inflowFrom {first pred : BlockId} {depth : Nat} {l : Locals} :
    Runs (inflowFrom first depth pred) s l s' ↔
      (∃ P, s.graph.block? pred = some P ∧ l = P.locals ∧ P.locals.stack.length = depth) ∧
        s' = s := by
  simp only [inflowFrom, Runs.bind_iff, runs_locals, Runs.ite_iff, Runs.throw_iff, false_and,
    exists_false, and_false, false_or, Runs.pure_iff, not_not]
  constructor
  · rintro ⟨_, _, ⟨P, hP, rfl, rfl⟩, hlen, rfl, rfl⟩
    exact ⟨⟨P, hP, rfl, hlen⟩, rfl⟩
  · rintro ⟨⟨P, hP, rfl, hlen⟩, rfl⟩
    exact ⟨_, s', ⟨P, hP, rfl, rfl⟩, hlen, rfl, rfl⟩

theorem runs_forM_report {names : List String} :
    Runs (names.forM fun n => report (.lossOfValue n)) s u s' ↔
      s' = { s with diagnostics := s.diagnostics ++ names.map .lossOfValue } := by
  induction names generalizing s with
  | nil => simp
  | cons n names ih =>
    simp only [Runs.forM_cons, runs_report, ih]
    simp

theorem runs_mapM_typeOf :
    Runs (rs.mapM fun r => (liftM (B.typeOf r) : BuildM ValueType)) s ts s' ↔
      B.HasTypes rs ts ∧ s' = s :=
  Runs.mapM_iff fun _ _ _ => by rw [Runs.lift_except_iff, Block.typeOf_eq_ok]

theorem runs_typesOf (hB : s.graph.block? b = some B) :
    Runs (rs.mapM (typeOf b)) s ts s' ↔ B.HasTypes rs ts ∧ s' = s :=
  Runs.mapM_iff fun _ _ _ => by simp [hB]

theorem runs_option_mapM_typeOf {r : Option Register} {t : Option ValueType} :
    Runs (r.mapM fun r => (liftM (B.typeOf r) : BuildM ValueType)) s t s' ↔
      B.HasTypes r.toList t.toList ∧ s' = s := by
  cases r with
  | none => cases t <;> simp [Option.mapM, Block.HasTypes]
  | some r => cases t <;> simp [Option.mapM, Block.HasTypes, Block.typeOf_eq_ok]

theorem appendBlock_updateBlock (s : Builder) (new : Block) (f : Block → Block) :
    (s.appendBlock new).updateBlock s.graph.nextId f = s.appendBlock (f new) := by
  simp only [appendBlock, updateBlock, Graph.modifyBlock, Graph.nextId]
  rw [List.modify_eq_set_getElem?]
  simp

section Holds

variable {before : List Locals} {depth : Nat}
  (h : List.Forall₂ (fun p l => ∃ P, s.graph.block? p = some P ∧ l = P.locals ∧
    P.locals.stack.length = depth) preds before)

include h

theorem all_holds_eq (n : String) : before.all (·.holds n) = s.graph.allHold preds n := by
  induction h with
  | nil => rfl
  | cons hp _ ih =>
    obtain ⟨P, hP, rfl, -⟩ := hp
    simp only [Graph.allHold, List.all_cons, hP, Option.any_some] at ih ⊢
    rw [ih]

theorem any_holds_eq (n : String) : before.any (·.holds n) = s.graph.someHold preds n := by
  induction h with
  | nil => rfl
  | cons hp _ ih =>
    obtain ⟨P, hP, rfl, -⟩ := hp
    simp only [Graph.someHold, List.any_cons, hP, Option.any_some] at ih ⊢
    rw [ih]

end Holds

theorem runs_newChild :
    Runs (newChild context preds) s child s' ↔
      ∃ i : Inflow, i.Gathers s.graph context preds ∧ child = s.graph.nextId ∧
        s' = s.addChild preds i := by
  unfold newChild
  cases preds with
  | nil =>
    simp only [Runs.throw_iff, false_iff, not_exists, not_and]
    rintro i ⟨-, ⟨p, P, hp, -⟩, -⟩
    simp at hp
  | cons first rest =>
    simp only [Runs.bind_iff, runs_locals, Runs.mapM_iff fun _ _ _ => runs_inflowFrom, runs_block,
      runs_mapM_typeOf, runs_option_mapM_typeOf, runs_forM_report, runs_addBlock, runs_modifyBlock,
      Runs.pure_iff]
    constructor
    · rintro ⟨_, _, ⟨P, hP, rfl, rfl⟩, before, _, ⟨hbefore, rfl⟩, C, _, ⟨hC, rfl⟩, P', _, ⟨hP', rfl⟩,
        slot, _, ⟨hslot, rfl⟩, stack, _, ⟨hstack, rfl⟩, -, _, rfl, _, _, ⟨rfl, rfl⟩, -, _,
        ⟨-, rfl⟩, rfl, rfl⟩
      obtain rfl := Option.some.inj (hP.symm.trans hP')
      have hall : (fun n => before.all (·.holds n)) = _ := funext (all_holds_eq hbefore)
      refine ⟨⟨slot, C.locals.symbols, _, stack⟩, ⟨⟨C, hC, rfl, hslot⟩, ⟨first, P, rfl, hP, hstack⟩,
        ?_, hall⟩, rfl, ?_⟩
      · intro p hp
        obtain ⟨n, hn, rfl⟩ := List.mem_iff_getElem.1 hp
        obtain ⟨Q, hQ, -, hlen⟩ := hbefore.get hn (hbefore.length_eq ▸ hn)
        exact ⟨Q, hQ, hlen.trans hstack.length_eq⟩
      · simp only [any_holds_eq hbefore]
        exact appendBlock_updateBlock _ _ _
    · rintro ⟨⟨slot, symbols, held, stack⟩, ⟨⟨C, hC, rfl, hslot⟩, ⟨_, P, ⟨⟩, hP, hstack⟩, hdepth, rfl⟩,
        rfl, rfl⟩
      have hlen : P.locals.stack.length = stack.length := hstack.length_eq
      obtain ⟨before, hbefore⟩ := exists_forall₂ (R := fun p l => ∃ Q, s.graph.block? p = some Q ∧
          l = Q.locals ∧ Q.locals.stack.length = P.locals.stack.length)
        fun p hp => (hdepth p hp).elim fun Q hQ => ⟨Q.locals, Q, hQ.1, rfl, hQ.2.trans hlen.symm⟩
      have hall : s.graph.allHold (first :: rest) = fun n => before.all (·.holds n) :=
        funext fun n => (all_holds_eq hbefore n).symm
      refine ⟨_, s, ⟨P, hP, rfl, rfl⟩, before, s, ⟨hbefore, rfl⟩, C, s, ⟨hC, rfl⟩, P, s, ⟨hP, rfl⟩,
        slot, s, ⟨hslot, rfl⟩, stack, s, ⟨hstack, rfl⟩, (), _, rfl, _, _, ⟨rfl, rfl⟩, (), _,
        ⟨⟨_, by rw [appendBlock_block?, if_pos rfl]⟩, rfl⟩, rfl, ?_⟩
      simp only [any_holds_eq hbefore, hall]
      symm
      exact appendBlock_updateBlock _ _ _

theorem runs_enter : Runs (enter b) s child s' ↔ Runs (converge b [b]) s child s' := by
  simp only [converge, enter, Runs.bind_iff, Runs.forM_cons, Runs.forM_nil, exists_eq_right']

theorem runs_leave : Runs (leave context b) s child s' ↔ Runs (converge context [b]) s child s' := by
  simp only [converge, leave, Runs.bind_iff, Runs.forM_cons, Runs.forM_nil, exists_eq_right']

end Builder

end BlockGraph
