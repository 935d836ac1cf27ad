import BlockGraph.Graph.Copies
import BlockGraph.Proofs.Execution
import BlockGraph.Proofs.Graph.Registers

/-!
Copy propagation keeps the meaning of a graph. While the copies of a block go, the renaming couples
two register files: that of the block as it was, and that of what is kept of it.
-/

namespace BlockGraph

section Rewriting

variable {ε : Type} {f : Register → Except ε Register} {op op' : Operation}

theorem Operation.SameShape.form_eq (h : op.SameShape op') : op'.form = op.form := by
  cases h with
  | native name h => simp [form, Operation.mapM, List.map_const', h]
  | _ => rfl

theorem Operation.mapM_eq_ok (h : op.mapM f = .ok op') :
    op'.form = op.form ∧ op.operands.mapM f = .ok op'.operands := by
  obtain ⟨hshape, hoperands⟩ := Operation.covers.of_rewrite_eq_ok h
  exact ⟨hshape.form_eq, BlockGraph.mapM_eq_ok.2 hoperands⟩

theorem Operation.copy?_of_mapM_eq_ok (h : op.mapM f = .ok op') :
    op'.copy? = none ∧ op.copy? = none ∨ ∃ r r', op = .copy r ∧ op' = .copy r' ∧ f r = .ok r' := by
  obtain ⟨hshape, hoperands⟩ := Operation.covers.of_rewrite_eq_ok h
  cases hshape with
  | copy r r' => exact .inr ⟨r, r', rfl, rfl, (List.forall₂_cons.1 hoperands).1⟩
  | _ => exact .inl ⟨rfl, rfl⟩

theorem Edge.mapM_eq_ok {e e' : Edge} :
    e.mapM f = .ok e' ↔ f e.target = .ok e'.target ∧ e.arguments.mapM f = .ok e'.arguments := by
  simp only [Edge.mapM, bind_eq_ok, pure_eq_ok]
  constructor
  · rintro ⟨r, hr, rs, hrs, rfl⟩
    exact ⟨hr, hrs⟩
  · rintro ⟨hr, hrs⟩
    exact ⟨_, hr, _, hrs, rfl⟩

end Rewriting

namespace Renaming

variable {M : Machine} {r s : Register}

def Couples (t : Renaming) (old new : M.Registers) : Prop :=
  ∀ (r : Nat) (s : Register), t[r]? = some s → Machine.read new s = old[r]?

variable {t : Renaming} {b : BlockId} {old new : M.Registers}

theorem apply_eq_ok : t.apply b r = .ok s ↔ t[r.index]? = some s := by
  unfold apply
  cases t[r.index]? <;> simp

theorem Couples.read (h : t.Couples old new) (hr : t.apply b r = .ok s) :
    Machine.read new s = Machine.read old r :=
  h _ _ (apply_eq_ok.1 hr)

theorem Couples.readAll (h : t.Couples old new) {rs ss : List Register}
    (hr : rs.mapM (t.apply b) = .ok ss) : Machine.readAll new ss = Machine.readAll old rs := by
  have hf := mapM_eq_ok.1 hr
  unfold Machine.readAll
  clear hr
  induction hf with
  | nil => rfl
  | cons hrs _ ih => simp only [List.mapM_cons, h.read hrs, ih]

theorem Couples.push (h : t.Couples old new) (hl : t.length = old.length) {v : M.Value}
    {extra : M.Registers} (hs : Machine.read (new ++ extra) s = some v) :
    Couples (t ++ [s]) (old ++ [v]) (new ++ extra) := by
  intro r u hu
  rcases Nat.lt_or_ge r t.length with hr | hr
  · rw [List.getElem?_append_left hr] at hu
    have hold := h r u hu
    rw [List.getElem?_append_left (by omega)]
    obtain ⟨w, hw⟩ : ∃ w, old[r]? = some w := ⟨_, List.getElem?_eq_getElem (by omega)⟩
    rw [hw] at hold ⊢
    exact (List.getElem?_append_left (List.getElem?_eq_some_iff.1 hold).1).trans hold
  · rw [List.getElem?_append_right hr] at hu
    obtain ⟨hn, rfl⟩ : r - t.length = 0 ∧ s = u := by
      rcases hk : r - t.length with _ | k <;> simp_all
    rw [hs, List.getElem?_append_right (by omega), ← hl, hn]
    rfl

theorem couples_parameters (arguments : List M.Value) :
    Couples ((List.range arguments.length).map Register.mk) arguments arguments := by
  intro r s h
  rw [List.getElem?_map, Option.map_eq_some_iff] at h
  obtain ⟨n, hn, rfl⟩ := h
  obtain ⟨_, hn⟩ := List.getElem?_eq_some_iff.1 hn
  rw [List.getElem_range] at hn
  rw [Machine.read, hn]

end Renaming

namespace Machine

variable {M : Machine} {t : Renaming} {b : BlockId} {old new : M.Registers}

theorem value_of_couples (h : t.Couples old new) {i : Instruction} {op : Operation}
    (hop : i.operation.mapM (t.apply b) = .ok op) (hc : op.copy? = none)
    (hi : i.operation.copy? = none) (s : M.State) :
    value { i with operation := op } new s = value i old s := by
  obtain ⟨hform, hoperands⟩ := Operation.mapM_eq_ok hop
  simp only [value, hc, hi, hform, h.readAll hoperands]

theorem jump_of_couples (h : t.Couples old new) {e e' : Edge}
    (he : e.mapM (t.apply b) = .ok e') (side : Option Bool) (s : M.State) :
    jump side e' new s = jump side e old s := by
  obtain ⟨ht, ha⟩ := Edge.mapM_eq_ok.1 he
  simp only [jump, h.read ht, h.readAll ha]

theorem leave_of_couples (h : t.Couples old new) {e e' : Terminator}
    (he : e.mapM (t.apply b) = .ok e') (s : M.State) : leave e' new s = leave e old s := by
  cases e with
  | goto e =>
    simp only [Terminator.mapM, bind_eq_ok, pure_eq_ok] at he
    obtain ⟨e', he, rfl⟩ := he
    exact jump_of_couples h he none s
  | branch c onTrue onFalse =>
    simp only [Terminator.mapM, bind_eq_ok, pure_eq_ok] at he
    obtain ⟨c', hc, onTrue', ht, onFalse', hf, rfl⟩ := he
    simp only [leave, h.read hc]
    cases (Machine.read old c).bind M.truth with
    | none => rfl
    | some side =>
      cases side
      · exact jump_of_couples h hf _ s
      · exact jump_of_couples h ht _ s

end Machine

namespace Block

variable {M : Machine} {rest : List Instruction} {table table' : Renaming}

theorem dropCopies_kept (b : Block) {kept kept' : List Instruction}
    (h : b.dropCopies table kept rest = .ok (table', kept')) : ∃ added, kept' = kept ++ added := by
  induction rest generalizing table kept with
  | nil =>
    obtain ⟨-, rfl⟩ := Prod.mk.inj (Except.ok.inj h)
    exact ⟨[], by simp⟩
  | cons i rest ih =>
    simp only [dropCopies, bind_eq_ok] at h
    obtain ⟨op, -, h⟩ := h
    split at h
    · exact ih h
    · obtain ⟨added, rfl⟩ := ih h
      exact ⟨{ i with operation := op } :: added, by simp⟩

theorem dropCopies_carryOut (b : Block) {added : List Instruction} {kept : List Instruction}
    (h : b.dropCopies table kept rest = .ok (table', kept ++ added)) {old new : M.Registers}
    (hc : table.Couples old new) (hold : table.length = old.length)
    (hnew : new.length = b.parameters.length + kept.length) (s : M.State) :
    (∃ s', Machine.carryOut rest old s = .error s' ∧ Machine.carryOut added new s = .error s') ∨
      ∃ old' new' s', Machine.carryOut rest old s = .ok (old', s') ∧
        Machine.carryOut added new s = .ok (new', s') ∧ table'.Couples old' new' := by
  induction rest generalizing table kept added old new s with
  | nil =>
    obtain ⟨rfl, hadded⟩ := Prod.mk.inj (Except.ok.inj h)
    obtain rfl : added = [] := by simpa using hadded
    exact .inr ⟨old, new, s, rfl, rfl, hc⟩
  | cons i rest ih =>
    simp only [dropCopies, bind_eq_ok] at h
    obtain ⟨op, hop, h⟩ := h
    rcases Operation.copy?_of_mapM_eq_ok hop with ⟨hnone, hi⟩ | ⟨r, r', hi, rfl, hr⟩
    · rw [hnone] at h
      have hvalue := Machine.value_of_couples hc hop hnone hi s
      obtain ⟨later, hlater⟩ := b.dropCopies_kept h
      obtain rfl : added = { i with operation := op } :: later := by simpa using hlater
      cases hv : Machine.value i old s with
      | none => exact .inl ⟨s, by simp [Machine.carryOut, hv], by simp [Machine.carryOut, hvalue, hv]⟩
      | some p =>
        obtain ⟨v, s'⟩ := p
        simp only [Machine.carryOut, hvalue, hv]
        rw [hlater] at h
        refine ih h (hc.push hold ?_) (by simp [hold]) (by simp [hnew]; omega) s'
        simp [Machine.read, ← hnew]
    · have hread := hc.read hr
      have hlt : r.index < old.length := by
        rw [← hold]
        exact (List.getElem?_eq_some_iff.1 (Renaming.apply_eq_ok.1 hr)).1
      obtain ⟨v, hv⟩ : ∃ v, Machine.read old r = some v := ⟨_, List.getElem?_eq_getElem hlt⟩
      have hvalue : Machine.value i old s = some (v, s) := by
        simp [Machine.value, hi, Operation.copy?, hv]
      simp only [Machine.carryOut, hvalue]
      refine ih h ?_ (by simp [hold]) hnew s
      have hpush : Renaming.Couples (table ++ [r']) (old ++ [v]) (new ++ []) :=
        hc.push hold (by simpa [hread] using hv)
      simpa using hpush

theorem exec_propagateCopies {b b' : Block} {n : Nat} (h : b.propagateCopies = .ok (b', n))
    (arguments : List M.Value) (s : M.State) : b'.exec arguments s = b.exec arguments s := by
  simp only [propagateCopies, bind_eq_ok, pure_eq_ok, Prod.mk.injEq] at h
  obtain ⟨⟨table, kept⟩, hdrop, terminator, hterminator, locals, -, rfl, -⟩ := h
  simp only [exec]
  split
  case isFalse => rfl
  case isTrue hlength =>
    have hdrop' : b.dropCopies ((List.range b.parameters.length).map Register.mk) []
        b.instructions = .ok (table, [] ++ kept) := hdrop
    have hcarry := b.dropCopies_carryOut hdrop'
      (by simpa [hlength] using Renaming.couples_parameters arguments) (by simp [hlength])
      (by simpa using hlength) s
    simp only [complete, hlength, Nat.sub_self, List.drop_zero]
    rcases hcarry with ⟨s', hold, hnew⟩ | ⟨old, new, s', hold, hnew, hc⟩
    · rw [hold, hnew]
    · rw [hold, hnew]
      cases ht : b.terminator with
      | none =>
        rw [ht] at hterminator
        obtain rfl := pure_eq_ok.1 hterminator
        rfl
      | some t =>
        rw [ht] at hterminator
        obtain ⟨t', ht', rfl⟩ := option_mapM_some_eq_ok.1 hterminator
        exact Machine.leave_of_couples hc ht' s'

end Block

namespace Graph

variable {M : Machine} {g g' : Graph}

theorem propagateCopiesIn_eq_ok {bs bs' : List Block} {n : Nat}
    (h : (propagateCopiesIn bs).result = .ok (bs', n)) :
    List.Forall₂ (fun b b' => ∃ k, b.propagateCopies = .ok (b', k)) bs bs' := by
  induction bs generalizing bs' n with
  | nil =>
    obtain ⟨rfl, -⟩ := Prod.mk.inj (Except.ok.inj h)
    exact .nil
  | cons b rest ih =>
    simp only [propagateCopiesIn, Logged.bind_result_eq_ok] at h
    obtain ⟨⟨b', k⟩, hb, h⟩ := h
    obtain ⟨⟨rest', others⟩, hrest, h⟩ : ∃ p, (propagateCopiesIn rest).result = .ok p ∧
        (pure (b' :: p.1, k + p.2) : Logged _).result = .ok (bs', n) := by
      split at h
      · simpa only [Logged.bind_result_eq_ok, Logged.tell_result, exists_const, true_and] using h
      · simpa only [Logged.bind_result_eq_ok] using h
    obtain ⟨rfl, -⟩ := Prod.mk.inj (Except.ok.inj h)
    exact .cons ⟨k, hb⟩ (ih hrest)

theorem propagateCopies_eq_ok {n : Nat} (h : g.propagateCopies.result = .ok (g', n)) :
    List.Forall₂ (fun b b' => ∃ k, b.propagateCopies = .ok (b', k)) g.blocks g'.blocks := by
  simp only [propagateCopies, Logged.bind_result_eq_ok] at h
  obtain ⟨⟨blocks, removed⟩, hblocks, -, -, h⟩ := h
  obtain ⟨rfl, -⟩ := Prod.mk.inj (Except.ok.inj h)
  exact propagateCopiesIn_eq_ok hblocks

theorem exec_of_propagateCopies {n : Nat} (h : g.propagateCopies.result = .ok (g', n)) (b : BlockId)
    (arguments : List M.Value) (s : M.State) : g'.exec b arguments s = g.exec b arguments s := by
  have hblocks := propagateCopies_eq_ok h
  have hlength := hblocks.length_eq
  simp only [exec, block?]
  rcases Nat.lt_or_ge b.index g.blocks.length with hb | hb
  · have hb' : b.index < g'.blocks.length := by omega
    obtain ⟨k, hk⟩ := (List.forall₂_iff_get.1 hblocks).2 b.index hb hb'
    rw [List.getElem?_eq_getElem hb, List.getElem?_eq_getElem hb']
    exact Block.exec_propagateCopies hk arguments s
  · rw [List.getElem?_eq_none hb, List.getElem?_eq_none (by omega)]

theorem run_of_exec_eq (h : ∀ (b : BlockId) (arguments : List M.Value) (s : M.State),
      g'.exec b arguments s = g.exec b arguments s) (n : Nat) (b : BlockId)
    (arguments : List M.Value) (s : M.State) : g'.run n b arguments s = g.run n b arguments s := by
  induction n generalizing b arguments s with
  | zero => rfl
  | succ n ih =>
    have hnext : g'.run (M := M) n = g.run n := by
      funext b arguments s
      exact ih b arguments s
    simp only [run, h, hnext]

/-- Without its copies a graph does the same, block by block: from any argument values and any state
every block has the same outcome, and so any two runs from the same start agree after any number of
blocks. -/
theorem propagateCopies_preserves_execution {g g' : Graph} {removed : Nat}
    (h : g.propagateCopies.result = .ok (g', removed)) (M : Machine) :
    (∀ (b : BlockId) (arguments : List M.Value) (s : M.State),
      g'.exec b arguments s = g.exec b arguments s) ∧
    ∀ (n : Nat) (b : BlockId) (arguments : List M.Value) (s : M.State),
      g'.run n b arguments s = g.run n b arguments s :=
  ⟨exec_of_propagateCopies h, run_of_exec_eq (exec_of_propagateCopies h)⟩

def copyChain : Graph where
  blocks := [
    { id := ⟨0⟩
      parameters := [⟨.prim .u8, none⟩]
      instructions := [
        ⟨.copy ⟨0⟩, .prim .u8⟩, ⟨.copy ⟨1⟩, .prim .u8⟩, ⟨.numeric .add ⟨2⟩ ⟨1⟩, .prim .u8⟩,
        ⟨.blockRef ⟨1⟩, .blockRef [.prim .u8]⟩]
      terminator := some (.goto ⟨⟨4⟩, [⟨3⟩]⟩) },
    { id := ⟨1⟩, parameters := [⟨.prim .u8, none⟩], isFinal := true }]

theorem propagateCopies_preserves_execution_of_copyChain :
    ∃ g', copyChain.propagateCopies.result = .ok (g', 2) ∧
      ∀ M : Machine,
        (∀ (b : BlockId) (arguments : List M.Value) (s : M.State),
          g'.exec b arguments s = copyChain.exec b arguments s) ∧
        ∀ (n : Nat) (b : BlockId) (arguments : List M.Value) (s : M.State),
          g'.run n b arguments s = copyChain.run n b arguments s :=
  ⟨_, rfl, fun M => propagateCopies_preserves_execution rfl M⟩

end Graph

end BlockGraph
