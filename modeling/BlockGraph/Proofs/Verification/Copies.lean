import BlockGraph.Proofs.Builder.Steps
import BlockGraph.Proofs.Linearity.Copies
import BlockGraph.Proofs.Verification.Rules

namespace BlockGraph

namespace Drops

variable {n : Nat} {is ks : List Instruction} {t : Renaming}

theorem operands_lt (h : Drops n is t ks) : ∀ k i, is[k]? = some i →
    ∀ r ∈ i.operation.operands, r.index < n + k := by
  -- there is a table entry for whatever an instruction reads, and the table has no later ones
  induction h with
  | nil => simp
  | @copy is ks t c c' type h hc ih =>
    intro k i hi r hr
    rcases getElem?_concat_eq_some.1 hi with hi | ⟨rfl, rfl⟩
    · exact ih k i hi r hr
    · obtain rfl := List.mem_singleton.1 hr
      rw [← h.length]
      exact (List.getElem?_eq_some_iff.1 hc).1
  | @keep is ks t j j' h hrenamed _ ih =>
    intro k i hi r hr
    rcases getElem?_concat_eq_some.1 hi with hi | ⟨rfl, rfl⟩
    · exact ih k i hi r hr
    · obtain ⟨r', -, hr'⟩ := forall₂_mem_left hrenamed.operands hr
      rw [← h.length]
      exact (List.getElem?_eq_some_iff.1 hr').1

theorem kept_operands_lt (h : Drops n is t ks) : ∀ m i', ks[m]? = some i' →
    ∀ r' ∈ i'.operation.operands, r'.index < n + m := by
  induction h with
  | nil => simp
  | copy _ _ ih => exact ih
  | @keep is ks t j j' h hrenamed _ ih =>
    intro m i' hi' r' hr'
    rcases getElem?_concat_eq_some.1 hi' with hi' | ⟨rfl, rfl⟩
    · exact ih m i' hi' r' hr'
    · obtain ⟨r, -, hr⟩ := forall₂_mem_right hrenamed.operands hr'
      exact h.lt hr

theorem reference_iff (h : Drops n is t ks) (c : BlockId) (type : ValueType) :
    (∃ i ∈ ks, i.operation.blockRef? = some c ∧ i.type = type) ↔
      ∃ i ∈ is, i.operation.blockRef? = some c ∧ i.type = type := by
  have hform {i i' : Instruction} (hi : i.Renamed t i') :
      i'.operation.blockRef? = i.operation.blockRef? := by
    have hblock (op : Operation) : op.form.blockRef? = op.blockRef? := by cases op <;> rfl
    rw [← hblock, hi.form, hblock]
  constructor
  · rintro ⟨i', hi', href, rfl⟩
    obtain ⟨m, hm⟩ := List.mem_iff_getElem?.1 hi'
    obtain ⟨k, i, hk, -, -, hrenamed⟩ := h.origin hm
    exact ⟨i, List.mem_of_getElem? hk, (hform hrenamed).symm.trans href, hrenamed.type.symm⟩
  · rintro ⟨i, hi, href, rfl⟩
    have hstays : i.stays = true := by
      cases hop : i.operation <;> simp_all [Instruction.stays, Operation.blockRef?, Operation.copy?]
    obtain ⟨k, hk⟩ := List.mem_iff_getElem?.1 hi
    obtain ⟨-, i', hi', hrenamed⟩ := h.kept hk hstays
    exact ⟨i', List.mem_of_getElem? hi', (hform hrenamed).trans href, hrenamed.type⟩

theorem type_eq (h : Drops n is t ks) {ps ts : List ValueType} (us : List ValueType)
    (hn : ps.length = n)
    (hts : ps ++ is.map (·.type) ++ us = ts)
    (hcopies : ∀ c type, (⟨.copy c, type⟩ : Instruction) ∈ is → ts[c.index]? = some type)
    {r : Nat} {r' : Register} (hr : t[r]? = some r') :
    (ps ++ ks.map (·.type))[r'.index]? = ts[r]? := by
  induction h generalizing us r r' with
  | nil =>
    have hlt : r < n := by simpa using (List.getElem?_eq_some_iff.1 hr).1
    obtain rfl : ⟨r⟩ = r' := by simpa [hlt] using hr
    rw [← hts, List.map_nil, List.append_nil, List.getElem?_append_left (by omega)]
  | @copy is ks t c c' type h hc ih =>
    have hts' : ps ++ is.map (·.type) ++ (type :: us) = ts := by simpa using hts
    have hold {r : Nat} {r' : Register} (hr : t[r]? = some r') :
        (ps ++ ks.map (·.type))[r'.index]? = ts[r]? :=
      ih _ hts' (fun d type hd => hcopies d type (List.mem_append_left _ hd)) hr
    rcases getElem?_concat_eq_some.1 hr with hr | ⟨rfl, rfl⟩
    · exact hold hr
    · -- The copy has the type of what it copies, and so has the new register of that.
      rw [hold hc, hcopies c type (by simp), h.length, ← hts']
      simp [hn]
  | @keep is ks t i i' h hrenamed hstays ih =>
    have hts' : ps ++ is.map (·.type) ++ (i.type :: us) = ts := by simpa using hts
    rw [List.map_append, ← List.append_assoc]
    rcases getElem?_concat_eq_some.1 hr with hr | ⟨rfl, rfl⟩
    · have hlt := h.lt hr
      rw [List.getElem?_append_left (by simpa [hn] using hlt)]
      exact ih _ hts' (fun d type hd => hcopies d type (List.mem_append_left _ hd)) hr
    · rw [h.length, ← hts']
      simp [hn, hrenamed.type]

end Drops

def Edge.Renamed (t : Renaming) (e e' : Edge) : Prop :=
  t[e.target.index]? = some e'.target ∧
    List.Forall₂ (fun r r' => t[r.index]? = some r') e.arguments e'.arguments

inductive Terminator.Renamed (t : Renaming) : Terminator → Terminator → Prop
  | goto {e e' : Edge} : e.Renamed t e' → Renamed t (.goto e) (.goto e')
  | branch {c c' : Register} {onTrue onTrue' onFalse onFalse' : Edge} :
      t[c.index]? = some c' → onTrue.Renamed t onTrue' → onFalse.Renamed t onFalse' →
      Renamed t (.branch c onTrue onFalse) (.branch c' onTrue' onFalse')

theorem Edge.renamed_of_mapM {t : Renaming} {b : BlockId} {e e' : Edge}
    (h : e.mapM (t.apply b) = .ok e') : e.Renamed t e' := by
  obtain ⟨htarget, hargs⟩ := Edge.mapM_eq_ok.1 h
  exact ⟨Renaming.apply_eq_ok.1 htarget,
    (BlockGraph.mapM_eq_ok.1 hargs).imp fun _ _ => Renaming.apply_eq_ok.1⟩

theorem Terminator.renamed_of_mapM {t : Renaming} {b : BlockId} {e e' : Terminator}
    (h : e.mapM (t.apply b) = .ok e') : e.Renamed t e' := by
  cases e with
  | goto e =>
    simp only [Terminator.mapM, bind_eq_ok, pure_eq_ok] at h
    obtain ⟨e', he, rfl⟩ := h
    exact .goto (Edge.renamed_of_mapM he)
  | branch c onTrue onFalse =>
    simp only [Terminator.mapM, bind_eq_ok, pure_eq_ok] at h
    obtain ⟨c', hc, onTrue', ht, onFalse', hf, rfl⟩ := h
    exact .branch (Renaming.apply_eq_ok.1 hc) (Edge.renamed_of_mapM ht) (Edge.renamed_of_mapM hf)

namespace Block

def CopiesTyped (B : Block) : Prop :=
  ∀ r type, (⟨.copy r, type⟩ : Instruction) ∈ B.instructions → B.typeOf? r = some type

theorem typeOf?_eq (B : Block) (r : Register) :
    B.typeOf? r = (B.parameterTypes ++ B.instructions.map (·.type))[r.index]? := by
  unfold typeOf? instruction? parameterTypes
  rcases Nat.lt_or_ge r.index B.parameters.length with hlt | hge
  · rw [List.getElem?_append_left (by simpa using hlt)]
    simp [List.getElem?_eq_getElem hlt]
  · rw [List.getElem?_append_right (by simpa using hge), List.getElem?_eq_none hge]
    simp [Nat.not_lt.2 hge]

structure Reduces (t : Renaming) (B B' : Block) : Prop where
  parameters : B'.parameters = B.parameters
  isFinal : B'.isFinal = B.isFinal
  drops : Drops B.parameters.length B.instructions t B'.instructions
  exit : B.terminator = none ∧ B'.terminator = none ∨
    ∃ e e', B.terminator = some e ∧ B'.terminator = some e' ∧ e.Renamed t e'

theorem reduces_of_eq_ok {B B' : Block} {n : Nat} (h : B.propagateCopies = .ok (B', n)) :
    ∃ t, Reduces t B B' := by
  simp only [propagateCopies, bind_eq_ok, pure_eq_ok, Prod.mk.injEq] at h
  obtain ⟨⟨t, ks⟩, hdrop, exit, hexit, l, -, rfl, -⟩ := h
  refine ⟨t, rfl, rfl, B.dropCopies_drops hdrop .nil, ?_⟩
  cases hB : B.terminator with
  | none =>
    rw [hB] at hexit
    obtain rfl := pure_eq_ok.1 hexit
    exact .inl ⟨rfl, rfl⟩
  | some e =>
    rw [hB] at hexit
    obtain ⟨e', he, rfl⟩ := option_mapM_some_eq_ok.1 hexit
    exact .inr ⟨e, e', rfl, rfl, Terminator.renamed_of_mapM he⟩

variable {B B' : Block} {t : Renaming} {g g' : Graph}

namespace Reduces

variable (h : Reduces t B B')

include h

theorem parameterTypes : B'.parameterTypes = B.parameterTypes := by
  rw [Block.parameterTypes, h.parameters, Block.parameterTypes]

theorem mem_referenced {c : BlockId} : c ∈ B'.referenced ↔ c ∈ B.referenced := by
  have hiff := h.drops.reference_iff c
  simp only [referenced, List.mem_filterMap]
  constructor
  · rintro ⟨i, hi, hc⟩
    obtain ⟨j, hj, hc', -⟩ := (hiff i.type).1 ⟨i, hi, hc, rfl⟩
    exact ⟨j, hj, hc'⟩
  · rintro ⟨i, hi, hc⟩
    obtain ⟨j, hj, hc', -⟩ := (hiff i.type).2 ⟨i, hi, hc, rfl⟩
    exact ⟨j, hj, hc'⟩

theorem contains {r r' : Register} (hr : t[r.index]? = some r') :
    B.contains r = true ∧ B'.contains r' = true := by
  rw [contains_iff, contains_iff, registerCount, registerCount, h.parameters, ← h.drops.length]
  exact ⟨(List.getElem?_eq_some_iff.1 hr).1, h.drops.lt hr⟩

section Types

variable (hcopies : B.CopiesTyped)

include hcopies

theorem typeOf? {r r' : Register} (hr : t[r.index]? = some r') : B'.typeOf? r' = B.typeOf? r := by
  rw [typeOf?_eq, typeOf?_eq, h.parameterTypes]
  apply h.drops.type_eq [] (by simp [Block.parameterTypes]) (by simp) _ hr
  intro c type hc
  rw [← typeOf?_eq]
  exact hcopies c type hc

theorem hasTypes_iff {rs rs' : List Register} {ts : List ValueType}
    (hrs : List.Forall₂ (fun r r' => t[r.index]? = some r') rs rs') :
    B'.HasTypes rs' ts ↔ B.HasTypes rs ts := by
  induction hrs generalizing ts with
  | nil => simp [HasTypes]
  | cons hr _ ih =>
    cases ts with
    | nil => simp [HasTypes]
    | cons type ts =>
      simp only [HasTypes, List.forall₂_cons, h.typeOf? hcopies hr] at ih ⊢
      rw [ih]

theorem passes_iff {e e' : Edge} (he : e.Renamed t e') : B'.Passes e' ↔ B.Passes e := by
  simp only [Passes, h.typeOf? hcopies he.1, h.hasTypes_iff hcopies he.2]

theorem exit_iff {e e' : Terminator} (he : e.Renamed t e') :
    ((∀ c onTrue onFalse, e' = .branch c onTrue onFalse → B'.typeOf? c = some (.prim .bool)) ∧
        ∀ edge ∈ e'.edges, B'.Passes edge) ↔
      (∀ c onTrue onFalse, e = .branch c onTrue onFalse → B.typeOf? c = some (.prim .bool)) ∧
        ∀ edge ∈ e.edges, B.Passes edge := by
  cases he with
  | goto he => simp [Terminator.edges, h.passes_iff hcopies he]
  | branch hc ht hf =>
    simp [Terminator.edges, h.passes_iff hcopies ht, h.passes_iff hcopies hf, h.typeOf? hcopies hc]

end Types

theorem exit_registers {e e' : Terminator} (he : e.Renamed t e') :
    (∀ r ∈ e.registers, B.contains r = true) ∧ ∀ r ∈ e'.registers, B'.contains r = true := by
  have hregisters : List.Forall₂ (fun r r' => t[r.index]? = some r') e.registers e'.registers := by
    have hedge {e e' : Edge} (he : e.Renamed t e') :
        List.Forall₂ (fun r r' => t[r.index]? = some r') e.registers e'.registers := .cons he.1 he.2
    cases he with
    | goto he => exact hedge he
    | branch hc ht hf => exact .cons hc (List.rel_append (hedge ht) (hedge hf))
  constructor
  · intro r hr
    obtain ⟨r', -, hr'⟩ := forall₂_mem_left hregisters hr
    exact (h.contains hr').1
  · intro r' hr'
    obtain ⟨r, -, hr⟩ := forall₂_mem_right hregisters hr'
    exact (h.contains hr).2

theorem references_iff (hg : ∀ c, (g'.block? c).map Block.parameterTypes =
      (g.block? c).map Block.parameterTypes) :
    (∀ i ∈ B'.instructions, ∀ c, i.operation.blockRef? = some c →
        ∃ C, g'.block? c = some C ∧ i.type = .blockRef C.parameterTypes) ↔
      ∀ i ∈ B.instructions, ∀ c, i.operation.blockRef? = some c →
        ∃ C, g.block? c = some C ∧ i.type = .blockRef C.parameterTypes := by
  have hblock (c : BlockId) (type : ValueType) :
      (∃ C, g'.block? c = some C ∧ type = .blockRef C.parameterTypes) ↔
        ∃ C, g.block? c = some C ∧ type = .blockRef C.parameterTypes := by
    have hc := hg c
    cases hC : g.block? c <;> cases hC' : g'.block? c <;> simp_all
  have hiff := h.drops.reference_iff
  constructor
  · intro hrefs i hi c hc
    obtain ⟨j, hj, hc', htype⟩ := (hiff c i.type).2 ⟨i, hi, hc, rfl⟩
    exact (hblock c i.type).1 (htype ▸ hrefs j hj c hc')
  · intro hrefs i hi c hc
    obtain ⟨j, hj, hc', htype⟩ := (hiff c i.type).1 ⟨i, hi, hc, rfl⟩
    exact (hblock c i.type).2 (htype ▸ hrefs j hj c hc')

theorem violations_iff (hcopies : B.CopiesTyped) (hg : ∀ c, (g'.block? c).map Block.parameterTypes =
      (g.block? c).map Block.parameterTypes) : B'.violations g' = [] ↔ B.violations g = [] := by
  have hinstructions : B'.instructionViolations g' = [] ↔ B.instructionViolations g = [] := by
    rw [instructionViolations_eq_nil, instructionViolations_eq_nil, h.references_iff hg, h.parameters]
    apply and_congr_left'
    exact iff_of_true h.drops.kept_operands_lt h.drops.operands_lt
  have hexit : B'.terminatorViolations = [] ↔ B.terminatorViolations = [] := by
    rw [terminatorViolations_eq_nil, terminatorViolations_eq_nil]
    rcases h.exit with ⟨hB, hB'⟩ | ⟨e, e', hB, hB', he⟩
    · simp [hB, hB']
    · simp only [hB, hB', Option.some.injEq, forall_eq']
      exact and_congr (iff_of_true (h.exit_registers he).2 (h.exit_registers he).1)
        (h.exit_iff hcopies he)
  rw [violations, violations, List.append_eq_nil_iff, List.append_eq_nil_iff, hinstructions, hexit]

theorem isTerminated : B'.isTerminated = B.isTerminated := by
  rw [Block.isTerminated, Block.isTerminated, h.isFinal]
  rcases h.exit with ⟨hB, hB'⟩ | ⟨e, e', hB, hB', -⟩
  · rw [hB, hB']
  · rw [hB, hB', Option.isSome_some, Option.isSome_some]

end Reduces

end Block

namespace Graph

variable {g g' : Graph} {n : Nat}

theorem violations_eq_nil_iff {entries : List BlockId} :
    g.violations entries = [] ↔ (∀ b B, g.block? b = some B → B.violations g = []) ∧
      ∀ b B, g.block? b = some B → (∃ e ∈ entries, g.Reaches e b) → B.isTerminated = true := by
  rw [violations_eq_nil]
  simp only [Block.violations_eq_nil, Block.isTerminated, Bool.or_eq_true]
  constructor
  · rintro ⟨hblocks, hends⟩
    refine ⟨hblocks, fun b B hB => ?_⟩
    rintro ⟨e, he, hreach⟩
    exact hends e he b B hreach hB
  · rintro ⟨hblocks, hends⟩
    exact ⟨hblocks, fun e he b B hreach hB => hends b B hB ⟨e, he, hreach⟩⟩

def CopiesTyped (g : Graph) : Prop := ∀ b B, g.block? b = some B → B.CopiesTyped

section

variable (h : g.propagateCopies.result = .ok (g', n))

include h

theorem reduces_block? (b : BlockId) : g.block? b = none ∧ g'.block? b = none ∨
    ∃ B B' t, g.block? b = some B ∧ g'.block? b = some B' ∧ B.Reduces t B' := by
  obtain ⟨hlength, hblocks⟩ := List.forall₂_iff_get.1 (propagateCopies_eq_ok h)
  rcases Nat.lt_or_ge b.index g.blocks.length with hlt | hge
  · obtain ⟨k, hk⟩ := hblocks b.index hlt (hlength ▸ hlt)
    obtain ⟨t, ht⟩ := Block.reduces_of_eq_ok hk
    exact .inr ⟨_, _, t, List.getElem?_eq_getElem hlt, List.getElem?_eq_getElem (hlength ▸ hlt), ht⟩
  · exact .inl ⟨List.getElem?_eq_none hge, List.getElem?_eq_none (hlength ▸ hge)⟩

theorem reaches_iff {b c : BlockId} : g'.Reaches b c ↔ g.Reaches b c := by
  have href (x y : BlockId) : y ∈ g'.references x ↔ y ∈ g.references x := by
    rw [mem_references, mem_references]
    rcases reduces_block? h x with ⟨hX, hX'⟩ | ⟨X, X', t, hX, hX', hred⟩
    · simp [hX, hX']
    · simp [hX, hX', hred.mem_referenced]
  rw [Reaches, Reaches]
  simp only [href]

theorem forall_block_iff {P Q : BlockId → Block → Prop}
    (hPQ : ∀ b B B' t, g.block? b = some B → B.Reduces t B' → (Q b B' ↔ P b B)) :
    (∀ b B', g'.block? b = some B' → Q b B') ↔ ∀ b B, g.block? b = some B → P b B := by
  apply forall_congr'
  intro b
  rcases reduces_block? h b with ⟨hB, hB'⟩ | ⟨B, B', t, hB, hB', hred⟩
  · simp [hB, hB']
  · simp [hB, hB', hPQ b B B' t hB hred]

theorem violations_iff_of_propagateCopies (hcopies : g.CopiesTyped) (entries : List BlockId) :
    g'.violations entries = [] ↔ g.violations entries = [] := by
  have hparameters (c : BlockId) :
      (g'.block? c).map Block.parameterTypes = (g.block? c).map Block.parameterTypes := by
    rcases reduces_block? h c with ⟨hC, hC'⟩ | ⟨C, C', t, hC, hC', hred⟩
    · rw [hC, hC']
    · rw [hC, hC', Option.map_some, Option.map_some, hred.parameterTypes]
  have hblocks := forall_block_iff h (P := fun _ B => B.violations g = [])
    (Q := fun _ B' => B'.violations g' = [])
    fun b B B' t hB hred => hred.violations_iff (hcopies b B hB) hparameters
  have hends := forall_block_iff h
    (P := fun b B => (∃ e ∈ entries, g.Reaches e b) → B.isTerminated = true)
    (Q := fun b B' => (∃ e ∈ entries, g'.Reaches e b) → B'.isTerminated = true)
    fun b B B' t _ hred => by simp only [reaches_iff h, hred.isTerminated]
  rw [violations_eq_nil_iff, violations_eq_nil_iff, hblocks, hends]

end

end Graph

theorem Block.CopiesTyped.push {B : Block} {g : Graph} {i : Instruction} (h : B.CopiesTyped)
    (hi : B.Admits g i) : (B.push i).CopiesTyped := by
  intro r type hmem
  apply Block.typeOf?_push
  rcases List.mem_append.1 hmem with hmem | hmem
  · exact h r type hmem
  · obtain rfl := List.mem_singleton.1 hmem
    exact hi.copy r rfl

namespace Builder

variable {s s' : Builder}

theorem Step.copiesTyped (h : Step s s') (hs : s.graph.CopiesTyped) : s'.graph.CopiesTyped := by
  -- Only a new instruction can change what is copied in a block.
  have hupdate {b : BlockId} {f : Block → Block}
      (hf : ∀ B, s.graph.block? b = some B → (f B).CopiesTyped) :
      (s.updateBlock b f).graph.CopiesTyped := by
    intro c C hC
    rw [updateBlock_block?] at hC
    split at hC
    case isTrue hc =>
      subst hc
      obtain ⟨B, hB, rfl⟩ := Option.map_eq_some_iff.1 hC
      exact hf B hB
    case isFalse => exact hs c C hC
  cases h with
  | @push b B i hB _ hi =>
    apply hupdate
    intro B' hB'
    obtain rfl := Option.some.inj (hB.symm.trans hB')
    exact (hs b B hB).push hi
  | close _ _ _ => exact hupdate fun B hB => hs _ B hB
  | relocate b l => exact hupdate fun B hB => hs _ B hB
  | append _ hempty =>
    intro c C hC
    rw [appendBlock_block?] at hC
    split at hC
    · obtain rfl := Option.some.inj hC
      intro r type hmem
      simp [hempty.1] at hmem
    · exact hs c C hC
  | report ds => exact hs
  | layout L => exact hs
  | register h =>
    rw [h.2.1]
    exact hs
  | setFields l fields => exact hs

theorem Steps.copiesTyped (h : Steps s s') (hs : s.graph.CopiesTyped) : s'.graph.CopiesTyped := by
  induction h with
  | refl => exact hs
  | tail _ hstep ih => exact hstep.copiesTyped ih

end Builder

end BlockGraph
