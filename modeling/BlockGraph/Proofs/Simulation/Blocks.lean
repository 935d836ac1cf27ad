import BlockGraph.Proofs.Builder.Advances
import BlockGraph.Proofs.Simulation.Points

namespace BlockGraph

open Interpretation

variable {I : Interpretation} {L : Lowered} {rs : List Register}

namespace Interpretation.Variables

variable {vs vs' vs'' outer inner : I.Variables}

def Keeps (vs vs' : I.Variables) : Prop := ∀ n, (vs n).isSome = true → (vs' n).isSome = true

theorem Keeps.refl (vs : I.Variables) : vs.Keeps vs := fun _ h => h

theorem Keeps.trans (h : vs.Keeps vs') (k : vs'.Keeps vs'') : vs.Keeps vs'' :=
  fun n hn => k n (h n hn)

theorem Keeps.update (vs : I.Variables) (name : String) (x : Option I.Value) :
    vs.Keeps (Function.update vs name (some x)) := by
  intro n hn
  by_cases h : n = name
  · simp [h]
  · rwa [Function.update_of_ne h]

def Same (vs vs' : I.Variables) : Prop := ∀ n, (vs' n).isSome = (vs n).isSome

theorem Same.refl (vs : I.Variables) : vs.Same vs := fun _ => rfl

theorem Same.trans (h : vs.Same vs') (k : vs'.Same vs'') : vs.Same vs'' :=
  fun n => (k n).trans (h n)

theorem Same.keeps (h : vs.Same vs') : vs.Keeps vs' := fun n hn => (h n).trans hn

theorem Same.update {name : String} (h : (vs name).isSome = true) (x : Option I.Value) :
    vs.Same (Function.update vs name (some x)) := by
  intro n
  by_cases hn : n = name
  · simp [hn, h]
  · rw [Function.update_of_ne hn]

def Passes (outer vs vs' : I.Variables) : Prop :=
  ∀ n, (outer n).isSome = true → (vs' n).isSome = true ∧ vs' n = vs n

theorem Keeps.passes (h : outer.Keeps vs) : outer.Passes vs vs := fun n hn => ⟨h n hn, rfl⟩

theorem Keeps.passes_within (h : outer.Keeps vs) : outer.Passes vs (outer.within vs) := by
  intro n hn
  simp [within, hn, h n hn]

theorem Keeps.within (h : outer.Keeps vs) : outer.Keeps (outer.within vs) :=
  fun n hn => (h.passes_within n hn).1

end Interpretation.Variables

structure View (I : Interpretation) where
  vars : I.Variables
  operands : List I.Value
  slot : Option Nat

abbrev Reads (regs : List (Word I)) (rs : List Register) (ws : List (Word I)) : Prop :=
  List.Forall₂ (fun r w => regs[r.index]? = some w) rs ws

theorem getElem?_append_of_some {α : Type} {xs : List α} {n : Nat} {x : α} (h : xs[n]? = some x)
    (ys : List α) : (xs ++ ys)[n]? = some x := by
  obtain ⟨hlt, -⟩ := List.getElem?_eq_some_iff.1 h
  rw [List.getElem?_append_left hlt, h]

theorem Reads.append {regs : List (Word I)} {ws : List (Word I)} (h : Reads regs rs ws)
    (more : List (Word I)) : Reads (regs ++ more) rs ws :=
  h.imp fun _ _ hr => getElem?_append_of_some hr more

theorem Reads.split {regs : List (Word I)} {rs' : List Register} {ws ws' : List (Word I)}
    (h : Reads regs (rs ++ rs') (ws ++ ws')) (hlen : rs'.length = ws'.length) :
    Reads regs rs ws ∧ Reads regs rs' ws' := by
  obtain ⟨as, as', heq, has, has'⟩ := forall₂_append_right h
  obtain ⟨rfl, rfl⟩ := List.append_inj' heq (hlen.trans has'.length_eq.symm)
  exact ⟨has, has'⟩

theorem Reads.getElem? {regs : List (Word I)} {ws : List (Word I)} (h : Reads regs rs ws) {n : Nat}
    {r : Register} {x : Word I} (hr : rs[n]? = some r) (hx : ws[n]? = some x) :
    regs[r.index]? = some x := by
  induction h generalizing n with
  | nil => simp at hr
  | cons hrw _ ih =>
    cases n with
    | zero =>
      obtain rfl := Option.some.inj hr
      exact hrw.trans hx
    | succ n => exact ih hr hx

theorem Reads.readAll {regs : List (Word I)} {ws : List (Word I)} (h : Reads regs rs ws) :
    Machine.readAll (M := I.machine L) regs rs = some ws := by
  unfold Machine.readAll
  induction h with
  | nil => rfl
  | cons hr _ ih => simp [List.mapM_cons, Machine.read, hr, ih]

theorem Reads.value {regs ws : List (Word I)} {op : Operation} (h : Reads regs op.operands ws)
    (hop : op.copy? = none) (t : ValueType) (m : Memory I) :
    Machine.value (M := I.machine L) ⟨op, t⟩ regs m = I.execute L op.form t.kind ws m := by
  simp only [Machine.value, hop, h.readAll, Option.bind_some]

namespace Block

variable {B : Block} {regs : List (Word I)} {w : View I}

structure Mirrors (B : Block) (regs : List (Word I)) (w : View I) : Prop where
  length : regs.length = B.registerCount
  symbols : ∀ e ∈ B.locals.symbols.entries, ∃ x, w.vars e.1 = some x ∧
    ∀ r, e.2.register = some r → ∃ v, x = some v ∧ regs[r.index]? = some (.plain v)
  stack : Reads regs B.locals.stack (w.operands.map .plain)
  slot : Reads regs B.locals.returnSlot.toList (w.slot.toList.map .context)

theorem Mirrors.more {B' : Block} {more : List (Word I)} (h : B.Mirrors regs w)
    (hlocals : B'.locals = B.locals) (hcount : B'.registerCount = B.registerCount + more.length) :
    B'.Mirrors (regs ++ more) w where
  length := by rw [List.length_append, h.length, hcount]
  symbols e he := by
    rw [hlocals] at he
    obtain ⟨y, hy, hreg⟩ := h.symbols e he
    refine ⟨y, hy, fun r hr => ?_⟩
    obtain ⟨v, rfl, hv⟩ := hreg r hr
    exact ⟨v, rfl, getElem?_append_of_some hv _⟩
  stack := hlocals ▸ h.stack.append _
  slot := hlocals ▸ h.slot.append _

theorem Mirrors.push (h : B.Mirrors regs w) (i : Instruction) (x : Word I) :
    (B.push i).Mirrors (regs ++ [x]) w :=
  h.more rfl (B.push_registerCount i)

theorem Mirrors.register? (h : B.Mirrors regs w) {name : String} {r : Register}
    (hr : B.locals.symbols.register? name = some r) :
    ∃ v, w.vars name = some (some v) ∧ regs[r.index]? = some (.plain v) := by
  obtain ⟨x, hx, hxr⟩ := Option.bind_eq_some_iff.1 hr
  obtain ⟨y, hy, hreg⟩ := h.symbols (name, x) (OrderedMap.mem_of_get? hx)
  obtain ⟨v, rfl, hv⟩ := hreg r hxr
  exact ⟨v, hy, hv⟩

theorem Mirrors.last (h : B.Mirrors regs w) {r : Register} (hr : B.lastRegister? = some r) :
    regs[r.index]? = regs.getLast? := by
  unfold lastRegister? at hr
  split at hr
  · simp at hr
  · obtain rfl := Option.some.inj hr
    rw [List.getLast?_eq_getElem?, h.length]

structure Frames (B : Block) (w : View I) : Prop where
  names : ∀ n ∈ B.locals.symbols.keys, (w.vars n).isSome = true
  slot : B.locals.returnSlot.isSome = w.slot.isSome

theorem Mirrors.frames (h : B.Mirrors regs w) : B.Frames w where
  names n hn := by
    obtain ⟨e, he, rfl⟩ := List.mem_map.1 hn
    obtain ⟨x, hx, -⟩ := h.symbols e he
    simp [hx]
  slot := by
    have hlen := h.slot.length_eq
    revert hlen
    cases B.locals.returnSlot <;> cases w.slot <;> simp

end Block

namespace Signature

variable {sig : Signature} {w : View I}

structure Takes (sig : Signature) (w : View I) : Prop where
  slot : sig.acceptsReturn = true → w.slot.isSome = true
  carried : ∀ n ∈ sig.carried, ∃ v, w.vars n = some (some v)
  depth : w.operands.length = sig.stackDepth

def word (vs : I.Variables) (n : String) : Word I :=
  match vs n with
  | some (some v) => .plain v
  | _ => .nothing

def pass (sig : Signature) (w : View I) : List (Word I) :=
  (if sig.acceptsReturn then w.slot.toList.map .context else []) ++ sig.carried.map (word w.vars) ++
    w.operands.map .plain

end Signature

theorem Block.Mirrors.arguments {B : Block} {regs : List (Word I)} {w : View I}
    (h : B.Mirrors regs w) {sig : Signature} {b c : BlockId} {args : List Register}
    (hargs : sig.arguments B.locals b c = .ok args) :
    sig.Takes w ∧ Reads regs args (sig.pass w) := by
  obtain ⟨slot, carried, rfl, hslot, hcarried, hdepth⟩ := Signature.arguments_eq_ok.1 hargs
  have hvalue : List.Forall₂ (fun n r => ∃ v, w.vars n = some (some v) ∧
      regs[r.index]? = some (.plain v)) sig.carried carried :=
    hcarried.imp fun n r hr => h.register? hr
  have hlen := h.stack.length_eq
  refine ⟨⟨fun hs => ?_, fun n hn => ?_, by simp_all⟩, ?_⟩
  · rw [← h.frames.slot]
    simp only [hs, if_true] at hslot
    obtain ⟨r, hr, -⟩ := hslot
    simp [hr]
  · obtain ⟨r, -, v, hv, -⟩ := forall₂_mem_left hvalue hn
    exact ⟨v, hv⟩
  · refine (List.rel_append (List.rel_append ?_ ?_)) h.stack
    · split at hslot
      · obtain ⟨r, hr, rfl⟩ := hslot
        have := h.slot
        simpa [hr, *] using this
      · subst hslot
        simp [*]
    · refine List.forall₂_map_right_iff.2 (hvalue.flip.imp ?_)
      rintro r n ⟨v, hv, hr⟩
      simp [Signature.word, hv, hr]

namespace Graph

variable {g g' : Graph} {b c : BlockId} {regs : List (Word I)} {w w₀ : View I}

def Mirrors (g : Graph) (b : BlockId) (regs : List (Word I)) (w : View I) : Prop :=
  ∃ B, g.block? b = some B ∧ B.Mirrors regs w

def Frames (g : Graph) (b : BlockId) (w : View I) : Prop :=
  ∃ B, g.block? b = some B ∧ B.Frames w

def Receives (g : Graph) (b : BlockId) (args : List (Word I)) (w : View I) : Prop :=
  ∃ B, g.block? b = some B ∧ B.instructions = [] ∧ B.Mirrors args w

def Awaits (g : Graph) (b : BlockId) (w : View I) : Prop :=
  ∃ i : Inflow, g.block? b = some (i.block b) ∧ (∀ n ∈ i.symbols.keys, (w.vars n).isSome = true) ∧
    i.slot.isSome = w.slot.isSome

theorem Mirrors.frames (h : g.Mirrors b regs w) : g.Frames b w := by
  obtain ⟨B, hB, hw⟩ := h
  exact ⟨B, hB, hw.frames⟩

theorem Mirrors.kept (h : g.Mirrors b regs w)
    (hb : ∀ B, g.block? b = some B → g'.block? b = some B) : g'.Mirrors b regs w := by
  obtain ⟨B, hB, hw⟩ := h
  exact ⟨B, hb B hB, hw⟩

theorem Frames.kept (h : g.Frames b w) (hb : ∀ B, g.block? b = some B → g'.block? b = some B) :
    g'.Frames b w := by
  obtain ⟨B, hB, hw⟩ := h
  exact ⟨B, hb B hB, hw⟩

theorem Receives.kept (h : g.Receives b regs w)
    (hb : ∀ B, g.block? b = some B → g'.block? b = some B) : g'.Receives b regs w := by
  obtain ⟨B, hB, hw⟩ := h
  exact ⟨B, hb B hB, hw⟩

theorem Awaits.kept (h : g.Awaits b w) (hb : ∀ B, g.block? b = some B → g'.block? b = some B) :
    g'.Awaits b w := by
  obtain ⟨i, hi, hw⟩ := h
  exact ⟨i, hb _ hi, hw⟩

theorem Receives.mirrors (h : g.Receives b regs w) : g.Mirrors b regs w := by
  obtain ⟨B, hB, -, hw⟩ := h
  exact ⟨B, hB, hw⟩

theorem Receives.goes (h : g.Receives b regs w) (hL : g.Extends L.graph) (m : Memory I) :
    L.graph.Goes (M := I.machine L) 0 (.entry b regs m) (.inside b regs m) := by
  obtain ⟨B, hB, hnil, hw⟩ := h
  obtain ⟨B', hB', hext⟩ := hL b B hB
  refine .enter hB' ?_ (.refl _)
  rw [hext.parameters, hw.length, Block.registerCount, hnil]
  rfl

theorem Awaits.receives (h : g.Awaits b w₀) (hg : g.Extends g') {T : Block}
    (hT : g'.block? b = some T) (htakes : T.signature.Takes w) (hslot : w.slot = w₀.slot)
    {vs : I.Variables} (hvs : w₀.vars.Passes w.vars vs) :
    g.Receives b (T.signature.pass w) { w with vars := vs } := by
  obtain ⟨i, hi, hnames, hsome⟩ := h
  have hsig : T.signature = i.signature := by
    obtain ⟨T', hT', hext⟩ := hg b _ hi
    rw [hT] at hT'
    obtain rfl := Option.some.inj hT'
    exact hext.signature
  rw [hsig] at htakes ⊢
  have hslots : w.slot.isSome = i.slot.isSome := by rw [hslot, hsome]
  have hlen : (w.slot.toList.map (Word.context (I := I))).length = i.slot.toList.length := by
    revert hslots
    cases w.slot <;> cases i.slot <;> simp
  have hdepth : (w.operands.map Word.plain).length = i.stack.length := by
    rw [List.length_map, htakes.depth]
    rfl
  have hpass : i.signature.pass w = w.slot.toList.map .context ++
      i.carried.map (fun e => Signature.word w.vars e.1) ++ w.operands.map .plain := by
    simp only [Signature.pass, Inflow.signature, ← hslots, List.map_map]
    cases w.slot <;> rfl
  rw [hpass]
  refine ⟨_, hi, rfl, ?_, fun e' he' => ?_, i.forall₂_stack _ hlen hdepth, i.forall₂_slot _ hlen⟩
  · simp [Block.registerCount, Inflow.block, Inflow.parameters, hlen, hdepth]
  · obtain ⟨e, he, hname, -, hheld, hreg⟩ := forall₂_mem_right
      (i.forall₂_symbols (fun e => Signature.word w.vars e.1) (w.operands.map .plain) hlen) he'
    obtain ⟨hin, heq⟩ := hvs e.1 (hnames _ (List.mem_map_of_mem he))
    obtain ⟨x, hx⟩ := Option.isSome_iff_exists.1 hin
    refine ⟨x, by rw [hname]; exact hx, fun r hr => ?_⟩
    -- a variable with a register is one of those that are carried
    have hcarried : e.1 ∈ i.signature.carried := by
      rw [hr] at hheld
      exact List.mem_map_of_mem (List.mem_filter.2 ⟨he, hheld.symm⟩)
    obtain ⟨v, hv⟩ := htakes.carried e.1 hcarried
    rw [hx, hv] at heq
    obtain rfl := Option.some.inj heq
    exact ⟨v, rfl, by rw [hreg r hr, Signature.word, hv]⟩

def Yields (g : Graph) (b : BlockId) (w : View I) (before : Contexts I) (σ : I.State)
    (v : Option I.Value) (y : (I.machine L).Point) : Prop :=
  ∃ regs cs, y = .inside b regs ⟨σ, cs⟩ ∧ g.Mirrors b regs w ∧ before <+: cs ∧
    ∀ a, v = some a → regs.getLast? = some (.plain a)

theorem Yields.kept {before : Contexts I} {σ : I.State} {v : Option I.Value} {y : (I.machine L).Point}
    (h : g.Yields b w before σ v y) (hb : ∀ B, g.block? b = some B → g'.block? b = some B) :
    g'.Yields b w before σ v y := by
  obtain ⟨regs, cs, rfl, hw, hcs, hlast⟩ := h
  exact ⟨regs, cs, rfl, hw.kept hb, hcs, hlast⟩

theorem Receives.yields {before cs : Contexts I} (h : g.Receives b regs w) (hcs : before <+: cs)
    (σ : I.State) : g.Yields (L := L) b w before σ none (.inside b regs ⟨σ, cs⟩) :=
  ⟨regs, cs, rfl, h.mirrors, hcs, by simp⟩

def Arrives (g : Graph) (b : BlockId) (w : View I) (before : Contexts I) (σ : I.State)
    (y : (I.machine L).Point) : Prop :=
  ∃ args cs, y = .entry b args ⟨σ, cs⟩ ∧ g.Receives b args w ∧ before <+: cs

theorem Arrives.goes {before : Contexts I} {σ : I.State} {y : (I.machine L).Point}
    (h : g.Arrives b w before σ y) (hL : g.Extends L.graph) :
    ∃ z, L.graph.Goes 0 y z ∧ g.Yields b w before σ none z := by
  obtain ⟨args, cs, rfl, hreceives, hcs⟩ := h
  exact ⟨_, hreceives.goes hL ⟨σ, cs⟩, hreceives.yields hcs σ⟩

theorem Frames.same {vs : I.Variables} (h : g.Frames b { w with vars := vs }) (hvs : w.vars.Same vs) :
    g.Frames b w := by
  obtain ⟨B, hB, hframes⟩ := h
  exact ⟨B, hB, fun n hn => (hvs n).symm.trans (hframes.names n hn), hframes.slot⟩

end Graph

namespace Builder

variable {s s' : Builder} {b c : BlockId} {r : Register} {u : Unit} {regs : List (Word I)}
  {w w₀ : View I} {m m' : Memory I} {B : Block} {i : Instruction} {op : Operation} {t : ValueType}
  {d context : BlockId} {preds : List BlockId}

/-! Code at the end of a block. -/

theorem exists_instruction (hB : s.graph.block? b = some B)
    (hL : (s.updateBlock b (·.push i)).graph.Extends L.graph)
    (hregs : regs.length = B.registerCount) :
    ∃ B', L.graph.block? b = some B' ∧ B'.parameters.length ≤ regs.length ∧
      B'.instructions[regs.length - B'.parameters.length]? = some i := by
  obtain ⟨B', hB', hext⟩ := hL b _ (updateBlock_self hB _)
  obtain ⟨post, hpost⟩ := hext.instructions
  have hparams : B'.parameters.length = B.parameters.length := by rw [hext.parameters]; rfl
  rw [Block.registerCount] at hregs
  refine ⟨B', hB', by omega, ?_⟩
  rw [hparams, hregs, Nat.add_sub_cancel_left, ← hpost]
  simp

theorem goes_push (hL : (s.updateBlock b (·.push i)).graph.Extends L.graph)
    (hb : s.graph.Mirrors b regs w) {x : Word I}
    (hx : Machine.value (M := I.machine L) i regs m = some (x, m')) :
    L.graph.Goes (M := I.machine L) 0 (.inside b regs m) (.inside b (regs ++ [x]) m') ∧
      (s.updateBlock b (·.push i)).graph.Mirrors b (regs ++ [x]) w := by
  obtain ⟨B, hB, hw⟩ := hb
  obtain ⟨B', hB', hle, hi⟩ := exists_instruction hB hL hw.length
  exact ⟨.carry hB' hle hi hx (.refl _), _, updateBlock_self hB _, hw.push i x⟩

theorem traps_push (hL : (s.updateBlock b (·.push i)).graph.Extends L.graph)
    (hb : s.graph.Mirrors b regs w) (hx : Machine.value (M := I.machine L) i regs m = none) :
    L.graph.Traps (M := I.machine L) (.inside b regs m) m := by
  obtain ⟨B, hB, hw⟩ := hb
  obtain ⟨B', hB', hle, hi⟩ := exists_instruction hB hL hw.length
  exact .instruction hB' hle hi hx

theorem goes_emit (h : Runs (emit b op t) s r s') (hL : s'.graph.Extends L.graph)
    (hb : s.graph.Mirrors b regs w) {x : Word I}
    (hx : Machine.value (M := I.machine L) ⟨op, t⟩ regs m = some (x, m')) :
    L.graph.Goes (M := I.machine L) 0 (.inside b regs m) (.inside b (regs ++ [x]) m') ∧
      s'.graph.Mirrors b (regs ++ [x]) w := by
  obtain ⟨-, -, -, -, -, rfl⟩ := runs_emit.1 h
  exact goes_push hL hb hx

theorem register_emit (h : Runs (emit b op t) s r s') (hb : s.graph.Mirrors b regs w) :
    r = ⟨regs.length⟩ := by
  obtain ⟨B, hB, hw⟩ := hb
  obtain ⟨B', hB', -, -, rfl, -⟩ := runs_emit.1 h
  obtain rfl := Option.some.inj (hB.symm.trans hB')
  rw [hw.length]

theorem simulates_emit (h : Runs (emit b op t) s r s') (hL : s'.graph.Extends L.graph)
    (hb : s.graph.Mirrors b regs w) {n : Nat} {α : Type} {f : I.State → Option (α × I.State)}
    (word : α → Word I) {σ : I.State} {cs : Contexts I}
    (hf : Machine.value (M := I.machine L) ⟨op, t⟩ regs ⟨σ, cs⟩ =
      (f σ).map fun p => (word p.1, ⟨p.2, cs⟩)) :
    Simulates L n (.inside b regs ⟨σ, cs⟩) (perform f w.vars σ) fun a vs σ' y =>
      vs = w.vars ∧ y = .inside b (regs ++ [word a]) ⟨σ', cs⟩ ∧
        s'.graph.Mirrors b (regs ++ [word a]) w := by
  obtain ⟨-, -, -, -, -, rfl⟩ := runs_emit.1 h
  unfold perform
  cases hσ : f σ with
  | none =>
    rw [hσ] at hf
    exact ⟨0, _, cs, .refl _, traps_push hL hb hf⟩
  | some p =>
    rw [hσ] at hf
    obtain ⟨hgoes, hmirrors⟩ := goes_push hL hb hf
    exact ⟨0, _, hgoes, rfl, rfl, hmirrors⟩

theorem goes_emitRef (h : Runs (emitRef b c) s r s') (hL : s'.graph.Extends L.graph)
    (hb : s.graph.Mirrors b regs w) :
    L.graph.Goes (M := I.machine L) 0 (.inside b regs m)
      (.inside b (regs ++ [I.reference L c]) m) ∧
      s'.graph.Mirrors b (regs ++ [I.reference L c]) w := by
  obtain ⟨T, _, _, _, _, _, rfl⟩ := runs_emitRef.1 h
  exact goes_push hL hb rfl

theorem goes_copy {r' : Register} (h : Runs (copy b r) s r' s') (hL : s'.graph.Extends L.graph)
    (hb : s.graph.Mirrors b regs w) {x : Word I} (hx : regs[r.index]? = some x) :
    L.graph.Goes (M := I.machine L) 0 (.inside b regs m) (.inside b (regs ++ [x]) m) ∧
      s'.graph.Mirrors b (regs ++ [x]) w := by
  obtain ⟨_, t, _, _, _, _, rfl⟩ := runs_copy.1 h
  refine goes_push hL hb ?_
  simp [Machine.value, Operation.copy?, Machine.read, hx]

/-! Variables and operands. -/

theorem reads_lastRegister (h : Runs (lastRegister b) s r s') (hb : s.graph.Mirrors b regs w) :
    s' = s ∧ regs[r.index]? = regs.getLast? := by
  obtain ⟨B, hB, hw⟩ := hb
  obtain ⟨B', hB', hr, rfl⟩ := runs_lastRegister.1 h
  rw [hB] at hB'
  obtain rfl := Option.some.inj hB'
  exact ⟨rfl, hw.last hr⟩

theorem mirrors_pushLast (h : Runs (pushLast b) s u s') (hb : s.graph.Mirrors b regs w) {v : I.Value}
    (hv : regs.getLast? = some (.plain v)) :
    s'.graph.Mirrors b regs { w with operands := w.operands ++ [v] } := by
  obtain ⟨B, hB, hw⟩ := hb
  obtain ⟨B', r, hB', hr, rfl⟩ := runs_pushLast.1 h
  rw [hB] at hB'
  obtain rfl := Option.some.inj hB'
  refine ⟨_, updateBlock_self hB _, hw.length, hw.symbols, ?_, hw.slot⟩
  rw [List.map_append]
  exact List.rel_append hw.stack (.cons ((hw.last hr).trans hv) .nil)

theorem mirrors_popMany {n : Nat} {rs : List Register} (h : Runs (popMany b n) s rs s')
    (hb : s.graph.Mirrors b regs w) {ops vs : List I.Value} (hops : w.operands = ops ++ vs)
    (hn : vs.length = n) :
    s'.graph.Mirrors b regs { w with operands := ops } ∧ Reads regs rs (vs.map .plain) := by
  obtain ⟨B, hB, hw⟩ := hb
  rcases runs_popMany.1 h with ⟨rfl, rfl, rfl⟩ | ⟨-, B', rest, hB', hstack, hlen, rfl⟩
  · obtain rfl := List.eq_nil_of_length_eq_zero hn
    rw [List.append_nil] at hops
    exact ⟨⟨B, hB, hw.length, hw.symbols, hops ▸ hw.stack, hw.slot⟩, .nil⟩
  · rw [hB] at hB'
    obtain rfl := Option.some.inj hB'
    have hreads := hw.stack
    rw [hstack, hops, List.map_append] at hreads
    obtain ⟨hrest, hrs⟩ := hreads.split (by simp [hlen, hn])
    exact ⟨⟨_, updateBlock_self hB _, hw.length, hw.symbols, hrest, hw.slot⟩, hrs⟩

theorem mirrors_pop (h : Runs (pop b) s r s') (hb : s.graph.Mirrors b regs w) {ops : List I.Value}
    {v : I.Value} (hops : w.operands = ops ++ [v]) :
    s'.graph.Mirrors b regs { w with operands := ops } ∧ regs[r.index]? = some (.plain v) := by
  obtain ⟨B, hB, hw⟩ := hb
  obtain ⟨B', rest, hB', hstack, rfl⟩ := runs_pop.1 h
  rw [hB] at hB'
  obtain rfl := Option.some.inj hB'
  have hreads := hw.stack
  rw [hstack, hops, List.map_append] at hreads
  obtain ⟨hrest, hr⟩ := hreads.split rfl
  exact ⟨⟨_, updateBlock_self hB _, hw.length, hw.symbols, hrest, hw.slot⟩, by simpa using hr⟩

theorem reads_peek {n : Nat} (h : Runs (peek b n) s r s') (hb : s.graph.Mirrors b regs w)
    {v : I.Value} (hv : w.operands.reverse[n]? = some v) :
    s' = s ∧ regs[r.index]? = some (.plain v) := by
  obtain ⟨B, hB, hw⟩ := hb
  obtain ⟨B', hB', hr, rfl⟩ := runs_peek.1 h
  rw [hB] at hB'
  obtain rfl := Option.some.inj hB'
  have hreads : Reads regs B.locals.stack.reverse (w.operands.reverse.map .plain) := by
    rw [List.map_reverse]
    exact List.rel_reverse hw.stack
  exact ⟨rfl, hreads.getElem? hr (by rw [List.getElem?_map, hv]; rfl)⟩

theorem mirrors_define {name : String} {x : Symbol} (h : Runs (define b name x) s u s')
    (hb : s.graph.Mirrors b regs w) {v : Option I.Value}
    (hv : ∀ r, x.register = some r → ∃ a, v = some a ∧ regs[r.index]? = some (.plain a)) :
    s'.graph.Mirrors b regs { w with vars := Function.update w.vars name (some v) } := by
  obtain ⟨B, hB, hw⟩ := hb
  obtain ⟨B', t, hB', ht, rfl⟩ := runs_define.1 h
  rw [hB] at hB'
  obtain rfl := Option.some.inj hB'
  have hentries := SymbolTable.define_entries ht
  refine ⟨_, updateBlock_self hB _, hw.length, fun e he => ?_, hw.stack, hw.slot⟩
  rw [Block.withLocals_locals, hentries] at he
  rcases List.mem_append.1 he with he | he
  · have hne : e.1 ≠ name := by
      have hnodup := t.nodup
      rw [hentries, List.map_append, List.nodup_append] at hnodup
      exact fun heq => hnodup.2.2 e.1 (List.mem_map_of_mem he) name (by simp) heq
    simp only [Function.update_of_ne hne]
    exact hw.symbols e he
  · obtain rfl := List.mem_singleton.1 he
    exact ⟨v, by simp, hv⟩

theorem mirrors_rebind {name : String} (h : Runs (rebind b name r) s u s')
    (hb : s.graph.Mirrors b regs w) {v : I.Value} (hv : regs[r.index]? = some (.plain v)) :
    (w.vars name).isSome = true ∧
      s'.graph.Mirrors b regs { w with vars := Function.update w.vars name (some (some v)) } := by
  obtain ⟨B, hB, hw⟩ := hb
  obtain ⟨B', t, hB', ht, rfl⟩ := runs_rebind.1 h
  rw [hB] at hB'
  obtain rfl := Option.some.inj hB'
  have hentries := SymbolTable.rebind_entries ht
  constructor
  · unfold SymbolTable.rebind at ht
    split at ht
    case h_1 x hx =>
      exact hw.frames.names name (List.mem_map_of_mem (OrderedMap.mem_of_get? hx))
    case h_2 => simp at ht
  · refine ⟨_, updateBlock_self hB _, hw.length, fun e' he' => ?_, hw.stack, hw.slot⟩
    rw [Block.withLocals_locals, hentries] at he'
    obtain ⟨e, he, rfl⟩ := List.mem_map.1 he'
    split
    case isTrue heq =>
      subst heq
      refine ⟨some v, by simp, fun r' hr' => ⟨v, rfl, ?_⟩⟩
      obtain rfl := Option.some.inj hr'
      exact hv
    case isFalse hne =>
      simp only [Function.update_of_ne hne]
      exact hw.symbols e he

/-! Ways out of a block. -/

theorem leave_edge {T : Block} (hw : B.Mirrors regs w) {args : List Register}
    (hargs : T.signature.arguments B.locals b c = .ok args) {e : Edge} (he : e.arguments = args)
    (more : List (Word I)) (href : (regs ++ more)[e.target.index]? = some (I.reference L c))
    (side : Option Bool) :
    T.signature.Takes w ∧
      Machine.jump (M := I.machine L) side e (regs ++ more) m =
        .jumped side (I.reference L c) (T.signature.pass w) m := by
  obtain ⟨htakes, hreads⟩ := hw.arguments hargs
  refine ⟨htakes, ?_⟩
  rw [Machine.jump, he, (hreads.append more).readAll, Machine.read, href]

theorem goes_close {g : Graph} (hL : g.Extends L.graph) (hB : g.block? b = some B)
    (hclosed : B.isTerminated = true) {code is : List Instruction}
    (hcode : B.instructions = code ++ is) (hlen : regs.length = B.parameters.length + code.length)
    {regs' : List (Word I)}
    (hcarry : Machine.carryOut (M := I.machine L) is regs m = .ok (regs', m')) :
    ∃ B', L.graph.block? b = some B' ∧ regs'.length = B'.registerCount ∧
      B'.terminator = B.terminator ∧
      L.graph.Goes (M := I.machine L) 0 (.inside b regs m) (.inside b regs' m') := by
  obtain ⟨B', hB', hparams, hinstr, hterm⟩ := hL.closed hB hclosed
  obtain ⟨added, rfl, hadded⟩ := Machine.carryOut_registers hcarry
  have hwithin : code ++ is <+: B'.instructions := ⟨[], by rw [List.append_nil, hinstr, hcode]⟩
  have hgoes := Graph.goes_carryOut (M := I.machine L) hB' hwithin regs m (by rw [hparams, hlen])
  rw [hcarry] at hgoes
  refine ⟨B', hB', ?_, hterm, hgoes⟩
  rw [Block.registerCount, hparams, hinstr, hcode, List.length_append, hlen, hadded,
    List.length_append, Nat.add_assoc]

theorem goes_jump (h : Runs (jump b c) s u s') (hL : s'.graph.Extends L.graph)
    (hb : s.graph.Mirrors b regs w) (m : Memory I) :
    ∃ T, s.graph.block? c = some T ∧ T.signature.Takes w ∧
      L.graph.Goes (M := I.machine L) 1 (.inside b regs m) (.entry c (T.signature.pass w) m) := by
  obtain ⟨B, hB, hw⟩ := hb
  obtain ⟨B', T, args, hB', hT, hopen, hargs, -, rfl⟩ := runs_jump.1 h
  rw [hB] at hB'
  obtain rfl := Option.some.inj hB'
  obtain ⟨htakes, hjump⟩ := leave_edge (L := L) (m := m) hw hargs (e := ⟨⟨B.registerCount⟩, args⟩) rfl
    [I.reference L c] (by simp [← hw.length]) none
  obtain ⟨B', hB', hlen, hterm, hgoes⟩ := goes_close (L := L) (m := m) hL
    (updateBlock_self hB _) (by simp) rfl hw.length rfl
  exact ⟨T, hT, htakes, hgoes.trans
    (.jump hB' hlen hterm hjump (I.target_reference L c) (.refl _))⟩

theorem goes_branchTo (h : Runs (branchTo b r c d) s u s') (hL : s'.graph.Extends L.graph)
    (hb : s.graph.Mirrors b regs w) {v : I.Value} (hv : regs[r.index]? = some (.plain v))
    (m : Memory I) :
    match I.truth v with
    | some side => ∃ T, s.graph.block? (if side then c else d) = some T ∧ T.signature.Takes w ∧
        L.graph.Goes (M := I.machine L) 1 (.inside b regs m)
          (.entry (if side then c else d) (T.signature.pass w) m)
    | none => ∃ y, L.graph.Goes (M := I.machine L) 0 (.inside b regs m) y ∧ L.graph.Traps y m := by
  obtain ⟨B, hB, hw⟩ := hb
  obtain ⟨B', T, F, ts, fs, hB', hT, hF, hopen, hts, hfs, -, -, rfl⟩ := runs_branchTo.1 h
  rw [hB] at hB'
  obtain rfl := Option.some.inj hB'
  have hmore : regs ++ [I.reference L c] ++ [I.reference L d] =
    regs ++ [I.reference L c, I.reference L d] := by simp
  have hcode : (((B.refer c T.parameterTypes).refer d F.parameterTypes).close
      (.branch r ⟨⟨B.registerCount⟩, ts⟩ ⟨⟨B.registerCount + 1⟩, fs⟩)).instructions =
      B.instructions ++ [⟨.blockRef c, .blockRef T.parameterTypes⟩,
        ⟨.blockRef d, .blockRef F.parameterTypes⟩] := by simp [Block.refer]
  obtain ⟨B', hB', hlen, hterm, hgoes⟩ := goes_close (L := L) (m := m) hL
    (updateBlock_self hB _) (by simp) hcode hw.length rfl
  rw [hmore] at hlen hgoes
  have hcond : Machine.read (M := I.machine L) (regs ++ [I.reference L c, I.reference L d]) r =
    some (.plain v) := getElem?_append_of_some hv _
  cases hside : I.truth v with
  | none =>
    refine ⟨_, hgoes, .leave hB' hlen hterm ?_⟩
    simp only [Machine.leave, hcond, Option.bind_some, hside]
  | some side =>
    have hleave : Machine.leave (M := I.machine L)
        (.branch r ⟨⟨B.registerCount⟩, ts⟩ ⟨⟨B.registerCount + 1⟩, fs⟩)
        (regs ++ [I.reference L c, I.reference L d]) m =
        Machine.jump (some side)
          (if side then ⟨⟨B.registerCount⟩, ts⟩ else ⟨⟨B.registerCount + 1⟩, fs⟩)
          (regs ++ [I.reference L c, I.reference L d]) m := by
      simp only [Machine.leave, hcond, Option.bind_some, hside]
    cases side with
    | true =>
      obtain ⟨htakes, hjump⟩ := leave_edge (L := L) (m := m) hw hts (e := ⟨⟨B.registerCount⟩, ts⟩) rfl
        [I.reference L c, I.reference L d] (by simp [← hw.length]) (some true)
      exact ⟨T, hT, htakes, hgoes.trans
        (.jump hB' hlen hterm (hleave.trans hjump) (I.target_reference L c) (.refl _))⟩
    | false =>
      obtain ⟨htakes, hjump⟩ := leave_edge (L := L) (m := m) hw hfs
        (e := ⟨⟨B.registerCount + 1⟩, fs⟩) rfl [I.reference L c, I.reference L d]
        (by simp [← hw.length]) (some false)
      exact ⟨F, hF, htakes, hgoes.trans
        (.jump hB' hlen hterm (hleave.trans hjump) (I.target_reference L d) (.refl _))⟩

/-! New blocks. -/

theorem awaits_newChild (h : Runs (newChild context preds) s c s')
    (hcontext : s.graph.Frames context w₀) : s'.graph.Awaits c w₀ := by
  obtain ⟨i, hi, rfl, rfl⟩ := runs_newChild.1 h
  obtain ⟨C, hC, hframes⟩ := hcontext
  obtain ⟨C', hC', hsymbols, hslot⟩ := hi.context
  rw [hC] at hC'
  obtain rfl := Option.some.inj hC'
  refine ⟨i, by simp, ?_, ?_⟩
  · rw [hsymbols]
    exact hframes.names
  · rw [← hframes.slot]
    have hlen := hslot.length_eq
    revert hlen
    cases C.locals.returnSlot <;> cases i.slot <;> simp

theorem not_mem_preds (h : Runs (newChild context preds) s c s') : c ∉ preds := by
  obtain ⟨i, hi, rfl, -⟩ := runs_newChild.1 h
  intro hc
  obtain ⟨P, hP, -⟩ := hi.depth _ hc
  simp [s.graph.block?_nextId] at hP

theorem goes_jumps {bs : List BlockId} (h : Runs (bs.forM (jump · c)) s u s')
    (hL : s'.graph.Extends L.graph) (hmem : b ∈ bs) (hne : c ∉ bs) (hb : s.graph.Mirrors b regs w)
    (m : Memory I) :
    ∃ T, s.graph.block? c = some T ∧ T.signature.Takes w ∧
      L.graph.Goes (M := I.machine L) 1 (.inside b regs m) (.entry c (T.signature.pass w) m) := by
  induction bs generalizing s with
  | nil => simp at hmem
  | cons a bs ih =>
    obtain ⟨t, hjump, hrest⟩ := Runs.forM_cons.1 h
    have hmoves := (moves_jump hjump).1
    have ht : t.graph.Extends L.graph := (moves_jumps hrest).1.graph_extends.trans hL
    by_cases hba : b = a
    · subst hba
      exact goes_jump hjump ht hb m
    · obtain ⟨T, hT, htakes, hgoes⟩ := ih hrest (by simpa [hba] using hmem) (by simp_all)
        (hb.kept fun B hB => hmoves.keeps b B (by simp [hba]) hB)
      obtain ⟨C, hC, hext⟩ : ∃ C, s.graph.block? c = some C ∧ T = C := by
        obtain ⟨_, C, _, _, hC, _⟩ := runs_jump.1 hjump
        have hkept := hmoves.keeps c C (by simp_all) hC
        rw [hT] at hkept
        exact ⟨C, hC, Option.some.inj hkept⟩
      exact ⟨T, hext ▸ hC, htakes, hgoes⟩

theorem goes_converge (h : Runs (converge context preds) s c s') (hL : s'.graph.Extends L.graph)
    (hcontext : s.graph.Frames context w₀) (hmem : b ∈ preds) (hb : s.graph.Mirrors b regs w)
    (hslot : w.slot = w₀.slot) {vs : I.Variables} (hvs : w₀.vars.Passes w.vars vs) (m : Memory I) :
    ∃ args, L.graph.Goes (M := I.machine L) 1 (.inside b regs m) (.entry c args m) ∧
      s'.graph.Receives c args { w with vars := vs } := by
  simp only [converge, Runs.bind_iff, Runs.pure_iff] at h
  obtain ⟨_, t, hchild, _, _, hjumps, rfl, rfl⟩ := h
  have hpreds := not_mem_preds hchild
  have hbt := hb.kept fun B hB => (moves_newChild hchild).keeps b B (by simp) hB
  obtain ⟨T, hT, htakes, hgoes⟩ := goes_jumps hjumps hL hmem hpreds hbt m
  refine ⟨_, hgoes, ?_⟩
  have hawaits := awaits_newChild hchild hcontext
  exact (hawaits.receives (.refl _) hT htakes hslot hvs).kept
    fun B hB => (moves_jumps hjumps).1.keeps c B hpreds hB

theorem awaits_converge (h : Runs (converge context preds) s c s')
    (hcontext : s.graph.Frames context w₀) : s'.graph.Awaits c w₀ := by
  simp only [converge, Runs.bind_iff, Runs.pure_iff] at h
  obtain ⟨_, t, hchild, _, _, hjumps, rfl, rfl⟩ := h
  exact (awaits_newChild hchild hcontext).kept
    fun B hB => (moves_jumps hjumps).1.keeps c B (not_mem_preds hchild) hB

theorem branchTo_other {e : BlockId} (h : Runs (branchTo b r c d) s u s') (he : e ≠ b) :
    s'.graph.block? e = s.graph.block? e := by
  obtain ⟨_, _, _, _, _, _, _, _, _, _, _, _, _, rfl⟩ := runs_branchTo.1 h
  exact updateBlock_other _ he _

theorem branchTo_extends (h : Runs (branchTo b r c d) s u s') : s.graph.Extends s'.graph := by
  obtain ⟨B, _, _, _, _, hB, _, _, hopen, _, _, _, _, rfl⟩ := runs_branchTo.1 h
  refine .modifyBlock fun B' hB' => ?_
  rw [hB] at hB'
  obtain rfl := Option.some.inj hB'
  exact ((Block.Extends.push hopen _).trans (.push (by simpa using hopen) _)).trans
    (.close (by simpa using hopen) _)

theorem goes_test (h : Runs (branchTo b r c d) s u s') (hL : s'.graph.Extends L.graph)
    (hc : s.graph.Awaits c w₀) (hd : s.graph.Awaits d w₀) (hcb : c ≠ b) (hdb : d ≠ b)
    (hb : s.graph.Mirrors b regs w) (hslot : w.slot = w₀.slot) {vs : I.Variables}
    (hvs : w₀.vars.Passes w.vars vs) {v : I.Value} (hv : regs[r.index]? = some (.plain v))
    (m : Memory I) :
    match I.truth v with
    | some side => ∃ args, L.graph.Goes (M := I.machine L) 1 (.inside b regs m)
          (.entry (if side then c else d) args m) ∧
        s'.graph.Receives (if side then c else d) args { w with vars := vs }
    | none => ∃ y, L.graph.Goes (M := I.machine L) 0 (.inside b regs m) y ∧ L.graph.Traps y m := by
  have hgoes := goes_branchTo h hL hb hv m
  split
  case h_1 side hside =>
    rw [hside] at hgoes
    obtain ⟨T, hT, htakes, hgoes⟩ := hgoes
    have hawaits : s.graph.Awaits (if side then c else d) w₀ := by cases side <;> assumption
    have hne : (if side then c else d) ≠ b := by cases side <;> assumption
    exact ⟨_, hgoes, (hawaits.receives (.refl _) hT htakes hslot hvs).kept
      fun E hE => (branchTo_other h hne).trans hE⟩
  case h_2 hside => simpa [hside] using hgoes

theorem goes_branch (h : Runs (branch b r) s (c, d) s') (hL : s'.graph.Extends L.graph)
    (hb : s.graph.Mirrors b regs w) {v : I.Value} (hv : regs[r.index]? = some (.plain v))
    (m : Memory I) :
    match I.truth v with
    | some side => ∃ args, L.graph.Goes (M := I.machine L) 1 (.inside b regs m)
          (.entry (if side then c else d) args m) ∧
        s'.graph.Receives (if side then c else d) args w
    | none => ∃ y, L.graph.Goes (M := I.machine L) 0 (.inside b regs m) y ∧ L.graph.Traps y m := by
  simp only [branch, Runs.bind_iff, Runs.pure_iff, Prod.mk.injEq] at h
  obtain ⟨_, t, hc, _, t', hd, _, _, hbranch, ⟨rfl, rfl⟩, rfl⟩ := h
  have hkeep := (moves_newChild hc).keeps
  have hkeep' := (moves_newChild hd).keeps
  have hb₁ := hb.kept fun B hB => hkeep b B (by simp) hB
  have hb₂ := hb₁.kept fun B hB => hkeep' b B (by simp) hB
  have hcb : c ≠ b := fun heq => not_mem_preds hc (by simp [heq])
  have hdb : d ≠ b := fun heq => not_mem_preds hd (by simp [heq])
  have hawaits : t'.graph.Awaits c w := (awaits_newChild hc hb.frames).kept
    fun B hB => hkeep' c B (by simp) hB
  exact goes_test hbranch hL hawaits (awaits_newChild hd hb₁.frames) hcb hdb hb₂ rfl
    (Variables.Keeps.refl _).passes hv m

theorem awaits_branch (h : Runs (branch b r) s (c, d) s') (hb : s.graph.Frames b w) :
    s'.graph.Awaits c w ∧ s'.graph.Awaits d w := by
  simp only [branch, Runs.bind_iff, Runs.pure_iff, Prod.mk.injEq] at h
  obtain ⟨_, t, hc, _, t', hd, _, _, hbranch, ⟨rfl, rfl⟩, rfl⟩ := h
  have hcb : c ≠ b := fun heq => not_mem_preds hc (by simp [heq])
  have hdb : d ≠ b := fun heq => not_mem_preds hd (by simp [heq])
  have hb₁ := hb.kept fun B hB => (moves_newChild hc).keeps b B (by simp) hB
  have hc₁ := (awaits_newChild hc hb).kept fun B hB => (moves_newChild hd).keeps c B (by simp) hB
  constructor
  · exact hc₁.kept fun B hB => (branchTo_other hbranch hcb).trans hB
  · exact (awaits_newChild hd hb₁).kept fun B hB => (branchTo_other hbranch hdb).trans hB

theorem frames_updateBlock {f : Block → Block} (hf : ∀ B, (f B).locals = B.locals)
    (hc : s.graph.Frames c w) : (s.updateBlock b f).graph.Frames c w := by
  obtain ⟨C, hC, hframes⟩ := hc
  by_cases hcb : c = b
  · subst hcb
    have hlocals := hf C
    exact ⟨f C, updateBlock_self hC f, by rw [hlocals]; exact hframes.names,
      by rw [hlocals]; exact hframes.slot⟩
  · exact ⟨C, (updateBlock_other _ hcb f).trans hC, hframes⟩

theorem frames_jump (h : Runs (jump b c) s u s') (hd : s.graph.Frames d w) :
    s'.graph.Frames d w := by
  obtain ⟨_, _, _, _, _, _, _, _, rfl⟩ := runs_jump.1 h
  exact frames_updateBlock (fun _ => rfl) hd

theorem frames_branch (h : Runs (branch b r) s (c, d) s') (hb : s.graph.Frames b w) :
    s'.graph.Frames b w := by
  simp only [branch, Runs.bind_iff, Runs.pure_iff, Prod.mk.injEq] at h
  obtain ⟨_, t, hc, _, t', hd, _, _, hbranch, ⟨rfl, rfl⟩, rfl⟩ := h
  obtain ⟨_, _, _, _, _, _, _, _, _, _, _, _, _, rfl⟩ := runs_branchTo.1 hbranch
  refine frames_updateBlock (fun _ => rfl) (hb.kept fun B hB => ?_)
  exact (moves_newChild hd).keeps b B (by simp) ((moves_newChild hc).keeps b B (by simp) hB)

theorem branch_apart (h : Runs (branch b r) s (c, d) s') :
    (c ≠ b ∧ d ≠ b ∧ c ≠ d) ∧ s'.graph.block? c ≠ none ∧ s'.graph.block? d ≠ none := by
  simp only [branch, Runs.bind_iff, Runs.pure_iff, Prod.mk.injEq] at h
  obtain ⟨_, t, hc, _, t', hd, _, _, hbranch, ⟨rfl, rfl⟩, rfl⟩ := h
  have hcb : c ≠ b := fun heq => not_mem_preds hc (by simp [heq])
  have hdb : d ≠ b := fun heq => not_mem_preds hd (by simp [heq])
  obtain ⟨hnone, hsome⟩ := ((moves_newChild hd).fresh d (by simp)).resolve_left (by simp)
  have hct := (((moves_newChild hc).fresh c (by simp)).resolve_left (by simp)).2
  obtain ⟨C, hC⟩ := Option.ne_none_iff_exists'.1 hct
  have hC' := (moves_newChild hd).keeps c C (by simp) hC
  rw [branchTo_other hbranch hcb, branchTo_other hbranch hdb, hC']
  refine ⟨⟨hcb, hdb, ?_⟩, by simp, hsome⟩
  rintro rfl
  exact hct hnone

section ConvergeBranch

variable {context d : BlockId} {preds : List BlockId}
  (h : Runs (convergeBranch context preds b r) s (c, d) s') (hL : s'.graph.Extends L.graph)
  (hcontext : s.graph.Frames context w₀) (hpreds : ∀ p ∈ preds, s.graph.block? p ≠ none)

include h hpreds

theorem convergeBranch_apart : c ≠ b ∧ d ≠ b ∧ c ∉ preds ∧ d ∉ preds ∧ b ∉ preds := by
  simp only [convergeBranch, Runs.bind_iff, Runs.pure_iff, Prod.mk.injEq] at h
  obtain ⟨_, t, hc, _, t', hd, _, t'', hjumps, _, _, hbranch, ⟨rfl, rfl⟩, rfl⟩ := h
  have hd' := not_mem_preds hd
  refine ⟨fun heq => not_mem_preds hc (by simp [heq]), fun heq => hd' (by simp [heq]),
    fun hmem => ?_, fun hmem => hd' (by simp [hmem]), fun hmem => ?_⟩
  · obtain ⟨-, -, rfl, -⟩ := runs_newChild.1 hc
    exact hpreds _ hmem s.graph.block?_nextId
  · -- the tested block is still open when it is left
    obtain ⟨B, _, _, _, _, hB, _, _, hopen, _⟩ := runs_branchTo.1 hbranch
    exact ((moves_jumps hjumps).2 b hmem).2 ⟨B, hB, hopen⟩

include hL hcontext

theorem goes_convergeBranch_tested (hb : s.graph.Mirrors b regs w) (hslot : w.slot = w₀.slot)
    {vs : I.Variables} (hvs : w₀.vars.Passes w.vars vs) {v : I.Value}
    (hv : regs[r.index]? = some (.plain v)) (m : Memory I) :
    match I.truth v with
    | some side => ∃ args, L.graph.Goes (M := I.machine L) 1 (.inside b regs m)
          (.entry (if side then c else d) args m) ∧
        s'.graph.Receives (if side then c else d) args { w with vars := vs }
    | none => ∃ y, L.graph.Goes (M := I.machine L) 0 (.inside b regs m) y ∧ L.graph.Traps y m := by
  obtain ⟨hcb, hdb, hcpreds, hdpreds, hbpreds⟩ := convergeBranch_apart h hpreds
  simp only [convergeBranch, Runs.bind_iff, Runs.pure_iff, Prod.mk.injEq] at h
  obtain ⟨_, t, hc, _, t', hd, _, t'', hjumps, _, _, hbranch, ⟨rfl, rfl⟩, rfl⟩ := h
  have hkeep := (moves_newChild hc).keeps
  have hkeep' := (moves_newChild hd).keeps
  have hkeep'' := (moves_jumps hjumps).1.keeps
  have hb₂ : t''.graph.Mirrors b regs w := ((hb.kept fun B hB => hkeep b B (by simp) hB).kept
    fun B hB => hkeep' b B (by simp) hB).kept fun B hB => hkeep'' b B hbpreds hB
  have hawaits : t''.graph.Awaits c w₀ := ((awaits_newChild hc hcontext).kept
    fun B hB => hkeep' c B (by simp) hB).kept fun B hB => hkeep'' c B hcpreds hB
  have hcontext' := hcontext.kept fun B hB => hkeep context B (by simp) hB
  have hawaits' : t''.graph.Awaits d w₀ := (awaits_newChild hd hcontext').kept
    fun B hB => hkeep'' d B hdpreds hB
  exact goes_test hbranch hL hawaits hawaits' hcb hdb hb₂ hslot hvs hv m

theorem goes_convergeBranch_leaving {p : BlockId} (hmem : p ∈ preds)
    (hp : s.graph.Mirrors p regs w) (hslot : w.slot = w₀.slot) {vs : I.Variables}
    (hvs : w₀.vars.Passes w.vars vs) (m : Memory I) :
    ∃ args, L.graph.Goes (M := I.machine L) 1 (.inside p regs m) (.entry d args m) ∧
      s'.graph.Receives d args { w with vars := vs } := by
  obtain ⟨hcb, hdb, hcpreds, hdpreds, hbpreds⟩ := convergeBranch_apart h hpreds
  simp only [convergeBranch, Runs.bind_iff, Runs.pure_iff, Prod.mk.injEq] at h
  obtain ⟨_, t, hc, _, t', hd, _, t'', hjumps, _, _, hbranch, ⟨rfl, rfl⟩, rfl⟩ := h
  have hkeep := (moves_newChild hc).keeps
  have hkeep' := (moves_newChild hd).keeps
  have hp' : t'.graph.Mirrors p regs w := (hp.kept fun B hB => hkeep p B (by simp) hB).kept
    fun B hB => hkeep' p B (by simp) hB
  obtain ⟨T, hT, htakes, hgoes⟩ :=
    goes_jumps hjumps ((branchTo_extends hbranch).trans hL) hmem hdpreds hp' m
  have hcontext' := hcontext.kept fun B hB => hkeep context B (by simp) hB
  refine ⟨_, hgoes, ?_⟩
  exact ((awaits_newChild hd hcontext').receives (.refl _) hT htakes hslot hvs).kept fun B hB =>
    (branchTo_other hbranch hdb).trans ((moves_jumps hjumps).1.keeps d B hdpreds hB)

end ConvergeBranch

end Builder

end BlockGraph
