import BlockGraph.Builder.Layout
import BlockGraph.Proofs.Graph.Growth
import BlockGraph.Proofs.Runs

namespace BlockGraph

namespace SymbolTable

variable {t t' : SymbolTable} {name : String}

theorem define_entries {x : Symbol} (h : t.define name x = .ok t') :
    t'.entries = t.entries ++ [(name, x)] := by
  unfold define OrderedMap.insertNew at h
  split at h
  case h_1 u hu =>
    split at hu
    · simp at hu
    · obtain rfl := Except.ok.inj hu
      obtain rfl := Except.ok.inj h
      rfl
  case h_2 => simp at h

theorem rebind_entries {r : Register} (h : t.rebind name r = .ok t') :
    t'.entries = t.entries.map fun e =>
      if e.1 = name then (e.1, { e.2 with register := some r }) else e := by
  unfold rebind at h
  split at h
  · obtain rfl := Except.ok.inj h
    rfl
  · simp at h

theorem keys_define {x : Symbol} (h : t.define name x = .ok t') : t'.keys = t.keys ++ [name] := by
  simp [OrderedMap.keys, define_entries h]

theorem keys_rebind {r : Register} (h : t.rebind name r = .ok t') : t'.keys = t.keys := by
  rw [OrderedMap.keys, rebind_entries h, List.map_map]
  refine List.map_congr_left fun e _ => ?_
  by_cases he : e.1 = name <;> simp [he]

end SymbolTable

namespace Builder

def updateBlock (s : Builder) (b : BlockId) (f : Block → Block) : Builder :=
  { s with graph := s.graph.modifyBlock b f }

def appendBlock (s : Builder) (new : Block) : Builder :=
  { s with graph := { s.graph with blocks := s.graph.blocks ++ [new] } }

section Fields

variable (s : Builder) (b c : BlockId) (f : Block → Block) (new : Block)

@[simp] theorem updateBlock_block? :
    (s.updateBlock b f).graph.block? c =
      if c = b then (s.graph.block? c).map f else s.graph.block? c :=
  s.graph.block?_modifyBlock b c f

theorem updateBlock_self {s : Builder} {b : BlockId} {B : Block} (hB : s.graph.block? b = some B)
    (f : Block → Block) : (s.updateBlock b f).graph.block? b = some (f B) := by
  rw [updateBlock_block?, if_pos rfl, hB]
  rfl

theorem updateBlock_other (s : Builder) {b c : BlockId} (h : c ≠ b) (f : Block → Block) :
    (s.updateBlock b f).graph.block? c = s.graph.block? c := by
  rw [updateBlock_block?, if_neg h]

@[simp] theorem updateBlock_layouts : (s.updateBlock b f).graph.layouts = s.graph.layouts := rfl
@[simp] theorem updateBlock_returnLayouts : (s.updateBlock b f).returnLayouts = s.returnLayouts := rfl
@[simp] theorem updateBlock_diagnostics : (s.updateBlock b f).diagnostics = s.diagnostics := rfl

@[simp] theorem appendBlock_block? :
    (s.appendBlock new).graph.block? c =
      if c = s.graph.nextId then some new else s.graph.block? c :=
  s.graph.block?_append c new

@[simp] theorem appendBlock_layouts : (s.appendBlock new).graph.layouts = s.graph.layouts := rfl
@[simp] theorem appendBlock_returnLayouts : (s.appendBlock new).returnLayouts = s.returnLayouts := rfl
@[simp] theorem appendBlock_diagnostics : (s.appendBlock new).diagnostics = s.diagnostics := rfl

@[simp] theorem updateBlock_nextId : (s.updateBlock b f).graph.nextId = s.graph.nextId := by
  simp [updateBlock, Graph.modifyBlock, Graph.nextId]

end Fields

section Runs

variable {s s' : Builder} {b : BlockId} {r : Register} {u : Unit}

theorem graph_block_eq_ok {g : Graph} {B : Block} : g.block b = .ok B ↔ g.block? b = some B := by
  unfold Graph.block
  cases g.block? b <;> simp

theorem graph_layout_eq_ok {g : Graph} {l : LayoutId} {L : Layout} :
    g.layout l = .ok L ↔ g.layout? l = some L := by
  unfold Graph.layout
  cases g.layout? l <;> simp

@[simp] theorem runs_tell {e : Event} : Runs (tell e) s u s' ↔ s' = s := by
  simp [tell, Logged.tell_result]

@[simp] theorem runs_report {d : Diagnostic} :
    Runs (report d) s u s' ↔ s' = { s with diagnostics := s.diagnostics ++ [d] } := by
  simp [report]

@[simp] theorem runs_block {B : Block} :
    Runs (block b) s B s' ↔ s.graph.block? b = some B ∧ s' = s := by
  simp [block, graph_block_eq_ok, and_comm]

@[simp] theorem runs_layout {l : LayoutId} {L : Layout} :
    Runs (layout l) s L s' ↔ s.graph.layout? l = some L ∧ s' = s := by
  simp [layout, graph_layout_eq_ok, and_comm]

@[simp] theorem runs_modifyBlock {f : Block → Block} :
    Runs (modifyBlock b f) s u s' ↔ (∃ B, s.graph.block? b = some B) ∧ s' = s.updateBlock b f := by
  simp [modifyBlock, updateBlock]

@[simp] theorem runs_locals {l : Locals} :
    Runs (locals b) s l s' ↔ ∃ B, s.graph.block? b = some B ∧ l = B.locals ∧ s' = s := by
  simp [locals, and_assoc]
  grind

@[simp] theorem runs_setLocals {l : Locals} :
    Runs (setLocals b l) s u s' ↔
      (∃ B, s.graph.block? b = some B) ∧ s' = s.updateBlock b (·.withLocals l) :=
  runs_modifyBlock

@[simp] theorem runs_addBlock {ps : List Parameter} {c : BlockId} :
    Runs (addBlock ps) s c s' ↔
      c = s.graph.nextId ∧ s' = s.appendBlock { id := s.graph.nextId, parameters := ps } := by
  simp [addBlock, Graph.nextId, appendBlock]
  grind

@[simp] theorem runs_typeOf {t : ValueType} :
    Runs (typeOf b r) s t s' ↔
      ∃ B, s.graph.block? b = some B ∧ B.typeOf? r = some t ∧ s' = s := by
  simp [typeOf, Block.typeOf_eq_ok, and_assoc]

@[simp] theorem runs_lastRegister :
    Runs (lastRegister b) s r s' ↔
      ∃ B, s.graph.block? b = some B ∧ B.lastRegister? = some r ∧ s' = s := by
  simp only [lastRegister, Runs.bind_iff, runs_block, and_assoc]
  constructor
  · rintro ⟨B, t, hB, rfl, h⟩
    split at h <;> simp_all
  · rintro ⟨B, hB, hr, rfl⟩
    exact ⟨B, s', hB, rfl, by simp [hr]⟩

theorem find?_contains_eq_none {B : Block} {rs : List Register} :
    (rs.find? fun r => !B.contains r) = none ↔ ∀ r ∈ rs, B.contains r = true := by
  simp

@[simp] theorem runs_emit {op : Operation} {t : ValueType} :
    Runs (emit b op t) s r s' ↔
      ∃ B, s.graph.block? b = some B ∧ B.isTerminated = false ∧
        (∀ o ∈ op.operands, B.contains o = true) ∧ r = ⟨B.registerCount⟩ ∧
        s' = s.updateBlock b (·.push ⟨op, t⟩) := by
  simp only [emit, Runs.bind_iff, runs_block, and_assoc, Runs.ite_iff, Runs.throw_iff, false_and,
    exists_false, and_false, false_or, Bool.not_eq_true]
  constructor
  · rintro ⟨B, t, hB, rfl, hopen, h⟩
    refine ⟨B, hB, hopen, ?_⟩
    split at h
    · simp at h
    case h_2 hfind =>
      simp only [Runs.bind_iff, runs_tell, runs_modifyBlock, Runs.pure_iff] at h
      obtain ⟨-, -, rfl, -, -, ⟨-, rfl⟩, rfl, rfl⟩ := h
      exact ⟨find?_contains_eq_none.1 hfind, rfl, rfl⟩
  · rintro ⟨B, hB, hopen, hops, rfl, rfl⟩
    refine ⟨B, s, hB, rfl, hopen, ?_⟩
    rw [find?_contains_eq_none.2 hops]
    simp only [Runs.bind_iff, runs_tell, runs_modifyBlock, Runs.pure_iff]
    exact ⟨(), s, rfl, (), _, ⟨⟨B, hB⟩, rfl⟩, trivial, rfl⟩

@[simp] theorem runs_emitRef {target : BlockId} :
    Runs (emitRef b target) s r s' ↔
      ∃ T B, s.graph.block? target = some T ∧ s.graph.block? b = some B ∧ B.isTerminated = false ∧
        r = ⟨B.registerCount⟩ ∧
        s' = s.updateBlock b (·.push ⟨.blockRef target, .blockRef T.parameterTypes⟩) := by
  simp [emitRef, Operation.operands, and_assoc]

@[simp] theorem runs_copy {r' : Register} :
    Runs (copy b r) s r' s' ↔
      ∃ B t, s.graph.block? b = some B ∧ B.isTerminated = false ∧ B.typeOf? r = some t ∧
        r' = ⟨B.registerCount⟩ ∧ s' = s.updateBlock b (·.push ⟨.copy r, t⟩) := by
  simp only [copy, Runs.bind_iff, runs_typeOf, runs_emit, Operation.operands, List.mem_singleton,
    forall_eq]
  constructor
  · rintro ⟨t, _, ⟨B, hB, ht, rfl⟩, B', hB', hopen, -, rfl, rfl⟩
    obtain rfl := Option.some.inj (hB.symm.trans hB')
    exact ⟨B, t, hB, hopen, ht, rfl, rfl⟩
  · rintro ⟨B, t, hB, hopen, ht, rfl, rfl⟩
    exact ⟨t, s, ⟨B, hB, ht, rfl⟩, B, hB, hopen, Block.contains_of_typeOf? ht, rfl, rfl⟩

@[simp] theorem runs_define {name : String} {x : Symbol} :
    Runs (define b name x) s u s' ↔
      ∃ B t, s.graph.block? b = some B ∧ B.locals.symbols.define name x = .ok t ∧
        s' = s.updateBlock b (·.withLocals { B.locals with symbols := t }) := by
  simp only [define, Runs.bind_iff, runs_locals, Runs.lift_except_iff, runs_setLocals]
  constructor
  · rintro ⟨_, _, ⟨B, hB, rfl, rfl⟩, t, _, ⟨ht, rfl⟩, -, rfl⟩
    exact ⟨B, t, hB, ht, rfl⟩
  · rintro ⟨B, t, hB, ht, rfl⟩
    exact ⟨_, s, ⟨B, hB, rfl, rfl⟩, t, s, ⟨ht, rfl⟩, ⟨B, hB⟩, rfl⟩

@[simp] theorem runs_rebind {name : String} :
    Runs (rebind b name r) s u s' ↔
      ∃ B t, s.graph.block? b = some B ∧ B.locals.symbols.rebind name r = .ok t ∧
        s' = s.updateBlock b (·.withLocals { B.locals with symbols := t }) := by
  simp only [rebind, Runs.bind_iff, runs_locals, Runs.lift_except_iff, runs_setLocals]
  constructor
  · rintro ⟨_, _, ⟨B, hB, rfl, rfl⟩, t, _, ⟨ht, rfl⟩, -, rfl⟩
    exact ⟨B, t, hB, ht, rfl⟩
  · rintro ⟨B, t, hB, ht, rfl⟩
    exact ⟨_, s, ⟨B, hB, rfl, rfl⟩, t, s, ⟨ht, rfl⟩, ⟨B, hB⟩, rfl⟩

@[simp] theorem runs_push :
    Runs (push b r) s u s' ↔
      ∃ B, s.graph.block? b = some B ∧ B.contains r = true ∧
        s' = s.updateBlock b (·.withLocals { B.locals with stack := B.locals.stack ++ [r] }) := by
  simp only [push, Runs.bind_iff, runs_block, Runs.ite_iff, Runs.throw_iff, false_and, exists_false,
    and_false, false_or, Bool.not_eq_true, Bool.not_eq_false', runs_setLocals]
  constructor
  · rintro ⟨B, _, ⟨hB, rfl⟩, hr, -, rfl⟩
    exact ⟨B, hB, hr, rfl⟩
  · rintro ⟨B, hB, hr, rfl⟩
    exact ⟨B, s, ⟨hB, rfl⟩, hr, ⟨B, hB⟩, rfl⟩

@[simp] theorem runs_pushLast :
    Runs (pushLast b) s u s' ↔
      ∃ B r, s.graph.block? b = some B ∧ B.lastRegister? = some r ∧
        s' = s.updateBlock b (·.withLocals { B.locals with stack := B.locals.stack ++ [r] }) := by
  simp only [pushLast, Runs.bind_iff, runs_lastRegister, runs_push]
  constructor
  · rintro ⟨r, _, ⟨B, hB, hr, rfl⟩, B', hB', -, rfl⟩
    obtain rfl := Option.some.inj (hB.symm.trans hB')
    exact ⟨B, r, hB, hr, rfl⟩
  · rintro ⟨B, r, hB, hr, rfl⟩
    exact ⟨r, s, ⟨B, hB, hr, rfl⟩, B, hB, Block.contains_of_lastRegister? hr, rfl⟩

theorem runs_popMany {count : Nat} {rs : List Register} :
    Runs (popMany b count) s rs s' ↔
      count = 0 ∧ rs = [] ∧ s' = s ∨
      count ≠ 0 ∧ ∃ B rest, s.graph.block? b = some B ∧ B.locals.stack = rest ++ rs ∧
        rs.length = count ∧ s' = s.updateBlock b (·.withLocals { B.locals with stack := rest }) := by
  simp only [popMany, Runs.ite_iff, Runs.pure_iff, Runs.bind_iff, runs_locals, Runs.throw_iff,
    false_and, exists_false, and_false, false_or, Nat.not_lt, runs_setLocals]
  refine or_congr Iff.rfl (and_congr_right fun _ => ?_)
  constructor
  · rintro ⟨l, _, ⟨B, hB, rfl, rfl⟩, hle, -, _, ⟨-, rfl⟩, rfl, rfl⟩
    refine ⟨B, _, hB, (List.take_append_drop _ _).symm, ?_, rfl⟩
    rw [List.length_drop]
    omega
  · rintro ⟨B, rest, hB, hstack, hlen, rfl⟩
    have hle : count ≤ B.locals.stack.length := by simp [hstack, hlen]
    have hrest : B.locals.stack.length - count = rest.length := by simp [hstack, hlen]
    refine ⟨_, s, ⟨B, hB, rfl, rfl⟩, hle, (), _, ⟨⟨B, hB⟩, rfl⟩, ?_, ?_⟩
    · rw [hrest, hstack, List.drop_left]
    · rw [hrest, hstack, List.take_left]

@[simp] theorem runs_pop :
    Runs (pop b) s r s' ↔
      ∃ B rest, s.graph.block? b = some B ∧ B.locals.stack = rest ++ [r] ∧
        s' = s.updateBlock b (·.withLocals { B.locals with stack := rest }) := by
  simp only [pop, Runs.bind_iff, runs_popMany]
  constructor
  · rintro ⟨rs, t, (⟨h, -⟩ | ⟨-, B, rest, hB, hstack, hlen, rfl⟩), h⟩
    · exact absurd h (by decide)
    · obtain ⟨r', rfl⟩ := List.length_eq_one_iff.1 hlen
      obtain ⟨rfl, rfl⟩ := Runs.pure_iff.1 h
      exact ⟨B, rest, hB, hstack, rfl⟩
  · rintro ⟨B, rest, hB, hstack, rfl⟩
    exact ⟨[r], _, .inr ⟨by decide, B, rest, hB, hstack, rfl, rfl⟩, Runs.pure_iff.2 ⟨rfl, rfl⟩⟩

@[simp] theorem runs_peek {depth : Nat} :
    Runs (peek b depth) s r s' ↔
      ∃ B, s.graph.block? b = some B ∧ B.locals.stack.reverse[depth]? = some r ∧ s' = s := by
  simp only [peek, Runs.bind_iff, runs_locals]
  constructor
  · rintro ⟨_, t, ⟨B, hB, rfl, rfl⟩, h⟩
    split at h <;> simp_all
  · rintro ⟨B, hB, hr, rfl⟩
    exact ⟨_, s', ⟨B, hB, rfl, rfl⟩, by simp [hr]⟩

end Runs

end Builder

end BlockGraph
