import BlockGraph.Graph.Violation
import Mathlib.Logic.Relation

namespace BlockGraph

namespace Block

variable {b : Block} {r : Register} {t : ValueType}

def push (b : Block) (i : Instruction) : Block :=
  { b with instructions := b.instructions ++ [i] }

def close (b : Block) (t : Terminator) : Block := { b with terminator := some t }

def withLocals (b : Block) (l : Locals) : Block := { b with locals := l }

section Fields

variable (b : Block) (i : Instruction) (t : Terminator) (l : Locals)

@[simp] theorem push_id : (b.push i).id = b.id := rfl
@[simp] theorem push_parameters : (b.push i).parameters = b.parameters := rfl
@[simp] theorem push_instructions : (b.push i).instructions = b.instructions ++ [i] := rfl
@[simp] theorem push_terminator : (b.push i).terminator = b.terminator := rfl
@[simp] theorem push_isFinal : (b.push i).isFinal = b.isFinal := rfl
@[simp] theorem push_signature : (b.push i).signature = b.signature := rfl
@[simp] theorem push_locals : (b.push i).locals = b.locals := rfl
@[simp] theorem push_isTerminated : (b.push i).isTerminated = b.isTerminated := rfl
@[simp] theorem push_parameterTypes : (b.push i).parameterTypes = b.parameterTypes := rfl

@[simp] theorem push_registerCount : (b.push i).registerCount = b.registerCount + 1 := by
  simp [registerCount, Nat.add_assoc]

@[simp] theorem close_id : (b.close t).id = b.id := rfl
@[simp] theorem close_parameters : (b.close t).parameters = b.parameters := rfl
@[simp] theorem close_instructions : (b.close t).instructions = b.instructions := rfl
@[simp] theorem close_terminator : (b.close t).terminator = some t := rfl
@[simp] theorem close_isFinal : (b.close t).isFinal = b.isFinal := rfl
@[simp] theorem close_signature : (b.close t).signature = b.signature := rfl
@[simp] theorem close_locals : (b.close t).locals = b.locals := rfl
@[simp] theorem close_isTerminated : (b.close t).isTerminated = true := rfl
@[simp] theorem close_registerCount : (b.close t).registerCount = b.registerCount := rfl
@[simp] theorem close_typeOf? (r : Register) : (b.close t).typeOf? r = b.typeOf? r := rfl

@[simp] theorem withLocals_id : (b.withLocals l).id = b.id := rfl
@[simp] theorem withLocals_parameters : (b.withLocals l).parameters = b.parameters := rfl
@[simp] theorem withLocals_instructions : (b.withLocals l).instructions = b.instructions := rfl
@[simp] theorem withLocals_terminator : (b.withLocals l).terminator = b.terminator := rfl
@[simp] theorem withLocals_isFinal : (b.withLocals l).isFinal = b.isFinal := rfl
@[simp] theorem withLocals_signature : (b.withLocals l).signature = b.signature := rfl
@[simp] theorem withLocals_locals : (b.withLocals l).locals = l := rfl
@[simp] theorem withLocals_isTerminated : (b.withLocals l).isTerminated = b.isTerminated := rfl
@[simp] theorem withLocals_registerCount : (b.withLocals l).registerCount = b.registerCount := rfl
@[simp] theorem withLocals_typeOf? (r : Register) : (b.withLocals l).typeOf? r = b.typeOf? r := rfl

end Fields

theorem contains_iff : b.contains r = true ↔ r.index < b.registerCount := by
  simp [contains]

theorem typeOf?_isSome (b : Block) (r : Register) : (b.typeOf? r).isSome = b.contains r := by
  unfold typeOf? instruction? contains registerCount
  rcases Nat.lt_or_ge r.index b.parameters.length with h | h
  · simp [List.getElem?_eq_getElem h]
    omega
  · rw [List.getElem?_eq_none h]
    simp only [Nat.not_lt.2 h, if_false, Option.isSome_map]
    rcases Nat.lt_or_ge (r.index - b.parameters.length) b.instructions.length with k | k
    · simp [List.getElem?_eq_getElem k]
      omega
    · simp [List.getElem?_eq_none k]
      omega

theorem contains_of_typeOf? (h : b.typeOf? r = some t) : b.contains r = true := by
  rw [← typeOf?_isSome, h]
  rfl

theorem lt_of_typeOf? (h : b.typeOf? r = some t) : r.index < b.registerCount := by
  simpa [contains] using contains_of_typeOf? h

theorem contains_of_lastRegister? (h : b.lastRegister? = some r) : b.contains r = true := by
  unfold lastRegister? at h
  split at h
  · simp at h
  · obtain rfl := Option.some.inj h
    simp [contains]
    omega

theorem typeOf?_push_of_lt {i : Instruction} (h : r.index < b.registerCount) :
    (b.push i).typeOf? r = b.typeOf? r := by
  unfold registerCount at h
  simp only [typeOf?, instruction?, push_parameters, push_instructions]
  rcases Nat.lt_or_ge r.index b.parameters.length with k | k
  · simp only [List.getElem?_eq_getElem k]
  · rw [List.getElem?_append_left (by omega)]
    rfl

theorem typeOf?_push {i : Instruction} (h : b.typeOf? r = some t) :
    (b.push i).typeOf? r = some t := by
  rw [typeOf?_push_of_lt (lt_of_typeOf? h), h]

@[simp] theorem typeOf?_push_last (b : Block) (i : Instruction) :
    (b.push i).typeOf? ⟨b.registerCount⟩ = some i.type := by
  simp [typeOf?, instruction?, registerCount]

theorem typeOf?_of_parameterTypes {B : Block} (h : B.parameterTypes[r.index]? = some t) :
    B.typeOf? r = some t := by
  simp only [parameterTypes, List.getElem?_map, Option.map_eq_some_iff] at h
  obtain ⟨p, hp, rfl⟩ := h
  simp [typeOf?, hp]

theorem typeOf_eq_ok : b.typeOf r = .ok t ↔ b.typeOf? r = some t := by
  unfold typeOf
  cases b.typeOf? r <;> simp

structure Extends (b b' : Block) : Prop where
  id : b'.id = b.id
  parameters : b'.parameters = b.parameters
  signature : b'.signature = b.signature
  instructions : b.instructions <+: b'.instructions
  closed : b.isTerminated = true →
    b'.instructions = b.instructions ∧ b'.terminator = b.terminator ∧ b'.isFinal = b.isFinal

namespace Extends

variable {b b' b'' : Block}

theorem refl (b : Block) : b.Extends b := ⟨rfl, rfl, rfl, List.prefix_rfl, fun _ => ⟨rfl, rfl, rfl⟩⟩

theorem trans (h : b.Extends b') (k : b'.Extends b'') : b.Extends b'' where
  id := k.id.trans h.id
  parameters := k.parameters.trans h.parameters
  signature := k.signature.trans h.signature
  instructions := h.instructions.trans k.instructions
  closed hb := by
    obtain ⟨hi, ht, hf⟩ := h.closed hb
    have hb' : b'.isTerminated = true := by simpa [isTerminated, ht, hf] using hb
    obtain ⟨ki, kt, kf⟩ := k.closed hb'
    exact ⟨ki.trans hi, kt.trans ht, kf.trans hf⟩

theorem push (h : b.isTerminated = false) (i : Instruction) : b.Extends (b.push i) where
  id := rfl
  parameters := rfl
  signature := rfl
  instructions := List.prefix_append _ _
  closed hb := by simp [h] at hb

theorem close (h : b.isTerminated = false) (t : Terminator) : b.Extends (b.close t) where
  id := rfl
  parameters := rfl
  signature := rfl
  instructions := List.prefix_rfl
  closed hb := by simp [h] at hb

theorem withLocals (b : Block) (l : Locals) : b.Extends (b.withLocals l) :=
  ⟨rfl, rfl, rfl, List.prefix_rfl, fun _ => ⟨rfl, rfl, rfl⟩⟩

theorem typeOf? (h : b.Extends b') {r : Register} {t : ValueType} (hr : b.typeOf? r = some t) :
    b'.typeOf? r = some t := by
  have hlt := lt_of_typeOf? hr
  obtain ⟨rest, hrest⟩ := h.instructions
  unfold registerCount at hlt
  simp only [Block.typeOf?, instruction?, h.parameters, ← hrest] at hr ⊢
  rcases Nat.lt_or_ge r.index b.parameters.length with k | k
  · rw [List.getElem?_eq_getElem k] at hr ⊢
    exact hr
  · rw [List.getElem?_append_left (by omega)]
    exact hr

theorem contains (h : b.Extends b') {r : Register} (hr : b.contains r = true) :
    b'.contains r = true := by
  have hle := h.instructions.length_le
  rw [contains_iff, registerCount] at *
  rw [h.parameters]
  omega

theorem referenced (h : b.Extends b') {c : BlockId} (hc : c ∈ b.referenced) : c ∈ b'.referenced :=
  (h.instructions.filterMap _).subset hc

theorem parameterTypes (h : b.Extends b') : b'.parameterTypes = b.parameterTypes := by
  simp [Block.parameterTypes, h.parameters]

end Extends

end Block

namespace Graph

variable {g : Graph} {c b : BlockId}

theorem block?_modifyBlock (g : Graph) (b c : BlockId) (f : Block → Block) :
    (g.modifyBlock b f).block? c = if c = b then (g.block? c).map f else g.block? c := by
  simp only [block?, modifyBlock, List.getElem?_modify]
  by_cases h : c = b
  · simp [h]
  · have hi : b.index ≠ c.index := fun hi => h (by cases c; cases b; simp_all)
    simp [h, hi]

def nextId (g : Graph) : BlockId := ⟨g.blocks.length⟩

theorem block?_append (g : Graph) (c : BlockId) (new : Block) :
    ({ g with blocks := g.blocks ++ [new] } : Graph).block? c =
      if c = g.nextId then some new else g.block? c := by
  by_cases h : c = g.nextId
  · subst h
    simp [block?, nextId]
  · have hi : c.index ≠ g.blocks.length := fun hi => h (by cases c; simp_all [nextId])
    rw [if_neg h]
    unfold block?
    rcases Nat.lt_or_ge c.index g.blocks.length with k | k
    · rw [List.getElem?_append_left k]
    · rw [List.getElem?_eq_none k, List.getElem?_eq_none (by simp; omega)]

theorem block?_nextId (g : Graph) : g.block? g.nextId = none := by
  simp [block?, nextId]

theorem block?_eq_none_iff : g.block? c = none ↔ g.blocks.length ≤ c.index := by
  simp [block?]

def Extends (g g' : Graph) : Prop :=
  ∀ b B, g.block? b = some B → ∃ B', g'.block? b = some B' ∧ B.Extends B'

namespace Extends

variable {g g' g'' : Graph}

theorem refl (g : Graph) : g.Extends g := fun _ B h => ⟨B, h, .refl B⟩

theorem trans (h : g.Extends g') (k : g'.Extends g'') : g.Extends g'' := by
  intro b B hB
  obtain ⟨B', hB', hext⟩ := h b B hB
  obtain ⟨B'', hB'', hext'⟩ := k b B' hB'
  exact ⟨B'', hB'', hext.trans hext'⟩

theorem modifyBlock {b : BlockId} {f : Block → Block}
    (h : ∀ B, g.block? b = some B → B.Extends (f B)) : g.Extends (g.modifyBlock b f) := by
  intro c B hB
  rw [block?_modifyBlock]
  split
  case isTrue hc =>
    subst hc
    exact ⟨f B, by simp [hB], h B hB⟩
  case isFalse => exact ⟨B, hB, .refl B⟩

theorem append (g : Graph) (new : Block) : g.Extends { g with blocks := g.blocks ++ [new] } := by
  intro c B hB
  refine ⟨B, ?_, .refl B⟩
  rw [block?_append, if_neg]
  · exact hB
  · rintro rfl
    simp [block?_nextId] at hB

theorem closed (h : g.Extends g') {b : BlockId} {B : Block} (hB : g.block? b = some B)
    (hc : B.isTerminated = true) :
    ∃ B', g'.block? b = some B' ∧ B'.parameters = B.parameters ∧
      B'.instructions = B.instructions ∧ B'.terminator = B.terminator := by
  obtain ⟨B', hB', hext⟩ := h b B hB
  obtain ⟨hi, ht, -⟩ := hext.closed hc
  exact ⟨B', hB', hext.parameters, hi, ht⟩

end Extends

def Reaches (g : Graph) : BlockId → BlockId → Prop :=
  Relation.ReflTransGen fun b c => c ∈ g.references b

theorem mem_references : c ∈ g.references b ↔ ∃ B, g.block? b = some B ∧ c ∈ B.referenced := by
  unfold references
  cases g.block? b <;> simp

theorem Extends.reaches {g' : Graph} (h : g.Extends g') (hr : g.Reaches b c) : g'.Reaches b c := by
  induction hr with
  | refl => exact .refl
  | tail _ hxy ih =>
    obtain ⟨B, hB, hy⟩ := mem_references.1 hxy
    obtain ⟨B', hB', hext⟩ := h _ B hB
    exact ih.tail (mem_references.2 ⟨B', hB', hext.referenced hy⟩)

end Graph

end BlockGraph
