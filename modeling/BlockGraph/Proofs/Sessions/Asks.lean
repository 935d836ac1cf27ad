import BlockGraph.Proofs.Lowering.Traversal
import BlockGraph.Proofs.Sessions.Registry

namespace BlockGraph

namespace Builder

def Asks {α : Type} (x : BuildM α) : Prop :=
  ∀ ⦃s a s'⦄, Runs x s a s' →
    ∃ qs, (∀ q ∈ qs, ∀ l, ¬Request.Defines q l) ∧ Runs (Request.runAll qs) s () s'

namespace Asks

variable {α β : Type}

theorem look {x : BuildM α} (h : ∀ s a s', Runs x s a s' → s' = s) : Asks x := by
  intro s a s' hrun
  obtain rfl := h s a s' hrun
  exact ⟨[], by simp, Runs.forM_nil.2 rfl⟩

theorem one {x : BuildM α} (q : Request) (hq : ∀ l, ¬q.Defines l)
    (hx : ∀ s a s', Runs x s a s' → Runs q.run s () s') : Asks x :=
  fun s a s' hrun => ⟨[q], by simpa using hq, Runs.forM_cons.2 ⟨s', hx s a s' hrun, Runs.forM_nil.2 rfl⟩⟩

theorem act {x : BuildM α} (a : Action) (hx : ∀ s b s', Runs x s b s' → Runs a.run s () s')
    (ha : ∀ l fields, a ≠ .defineClass l fields) : Asks x :=
  one (.act a) (fun l ⟨fields, h⟩ => ha l fields (by simpa using h)) hx

theorem seq {x : BuildM α} {f : α → BuildM β} (P : α → Prop) (hx : Asks x)
    (hP : ∀ s a s', Runs x s a s' → P a) (hf : ∀ a, P a → Asks (f a)) : Asks (x >>= f) := by
  intro s c s' hrun
  obtain ⟨a, t, ha, hc⟩ := Runs.bind_iff.1 hrun
  obtain ⟨qs, hqs, hrun₁⟩ := hx ha
  obtain ⟨qs', hqs', hrun₂⟩ := hf a (hP s a t ha) hc
  refine ⟨qs ++ qs', fun q hq => ?_, runAll_append.2 ⟨t, hrun₁, hrun₂⟩⟩
  rcases List.mem_append.1 hq with hq | hq
  · exact hqs q hq
  · exact hqs' q hq

theorem bind {x : BuildM α} {f : α → BuildM β} (hx : Asks x) (hf : ∀ a, Asks (f a)) :
    Asks (x >>= f) :=
  seq (fun _ => True) hx (fun _ _ _ _ => trivial) fun a _ => hf a

theorem pure {a : α} : Asks (Pure.pure a : BuildM α) := look fun _ _ _ h => (Runs.pure_iff.1 h).2

theorem emit {b : BlockId} {op : Operation} {t : ValueType} : Asks (emit b op t) :=
  one (.emit b op t) (by simp [Request.Defines]) fun _ a _ h => Runs.map_iff.2 ⟨a, h, rfl⟩

theorem emitRef {b c : BlockId} : Asks (emitRef b c) :=
  act (.emitRef b c) (fun _ a _ h => Runs.map_iff.2 ⟨a, h, rfl⟩) (by simp)

theorem copy {b : BlockId} {r : Register} : Asks (copy b r) :=
  act (.copy b r) (fun _ a _ h => Runs.map_iff.2 ⟨a, h, rfl⟩) (by simp)

theorem popMany {b : BlockId} {n : Nat} : Asks (popMany b n) :=
  act (.popMany b n) (fun _ a _ h => Runs.map_iff.2 ⟨a, h, rfl⟩) (by simp)

theorem addBlock {ps : List Parameter} : Asks (addBlock ps) :=
  act (.addBlock ps) (fun _ a _ h => Runs.map_iff.2 ⟨a, h, rfl⟩) (by simp)

theorem setLocals {b : BlockId} {l : Locals} : Asks (setLocals b l) :=
  act (.setLocals b l) (fun _ _ _ h => h) (by simp)

theorem define {b : BlockId} {name : String} {x : Symbol} : Asks (define b name x) :=
  act (.define b name x) (fun _ _ _ h => h) (by simp)

theorem goto {b : BlockId} {e : Edge} : Asks (goto b e) :=
  act (.goto b e) (fun _ _ _ h => h) (by simp)

theorem contextLayout {fields : List ValueType} : Asks (contextLayout fields) :=
  act (.contextLayout fields) (fun _ a _ h => Runs.map_iff.2 ⟨a, h, rfl⟩) (by simp)

theorem converge {b : BlockId} {preds : List BlockId} : Asks (converge b preds) :=
  act (.converge b preds) (fun _ a _ h => Runs.map_iff.2 ⟨a, h, rfl⟩) (by simp)

theorem branch {b : BlockId} {r : Register} : Asks (branch b r) :=
  act (.branch b r) (fun _ a _ h => Runs.map_iff.2 ⟨a, h, rfl⟩) (by simp)

theorem convergeBranch {b c : BlockId} {preds : List BlockId} {r : Register} :
    Asks (convergeBranch b preds c r) :=
  act (.convergeBranch b preds c r) (fun _ a _ h => Runs.map_iff.2 ⟨a, h, rfl⟩) (by simp)

theorem jump {b c : BlockId} : Asks (jump b c) := act (.jump b c) (fun _ _ _ h => h) (by simp)

theorem report {d : Diagnostic} : Asks (report d) := act (.report d) (fun _ _ _ h => h) (by simp)

theorem finish {b : BlockId} : Asks (finish b) := act (.finish b) (fun _ _ _ h => h) (by simp)

theorem returnLayout {t : ValueType} : Asks (returnLayout t) :=
  act (.returnLayout t) (fun _ a _ h => Runs.map_iff.2 ⟨a, h, rfl⟩) (by simp)

theorem edits {b : BlockId} {x : BuildM α} (h : Edits b x) : Asks x := by
  induction h with
  | look h => exact .look h
  | emit t _ => exact .emit
  | copy r => exact .copy
  | push r => exact .act (.push b r) (fun _ _ _ h => h) (by simp)
  | popMany n => exact .popMany
  | rebind name r => exact .act (.rebind b name r) (fun _ _ _ h => h) (by simp)
  | seq P _ hP _ ihx ihf => exact .seq P ihx hP ihf

end Asks

end Builder

namespace Lowering

open Builder

variable {b c : BlockId} {r : Register} {n : Nat} {s s' : State} {u : Unit}

theorem asks_storeContinuation : Asks (storeContinuation b r c) :=
  Asks.emitRef.bind fun _ => Asks.emit.bind fun _ => .pure

theorem asks_packContext {l : LayoutId} : Asks (packContext b c l) := by
  refine (Asks.look (by simp)).bind fun live => ?_
  split
  · exact Asks.emit.bind fun _ => asks_storeContinuation.bind fun _ => Asks.setLocals.bind fun _ =>
      .pure
  · refine (Asks.look (by simp)).bind fun _ => Asks.bind (.look fun s ts s' h => ?_) fun _ => ?_
    · have hlook (a : Register) (t : ValueType) (u : Builder) :
          Runs (typeOf b a) s t u ↔ Runs (typeOf b a) s t s ∧ u = s := by
        simp only [runs_typeOf, and_true]
        constructor
        · rintro ⟨B, hB, ht, rfl⟩
          exact ⟨⟨B, hB, ht⟩, rfl⟩
        · rintro ⟨⟨B, hB, ht⟩, rfl⟩
          exact ⟨B, hB, ht, rfl⟩
      exact ((Runs.mapM_iff hlook).1 h).2
    · exact Asks.contextLayout.bind fun _ => (Asks.look (by simp)).bind fun _ => Asks.emit.bind fun _ =>
        asks_storeContinuation.bind fun _ => (Asks.edits edits_storeFields).bind fun _ =>
        Asks.emit.bind fun _ =>
        Asks.emit.bind fun _ => (Asks.edits edits_loadFields).bind fun _ =>
        (Asks.look fun _ _ _ h => (Runs.lift_except_iff.1 h).2).bind fun _ =>
        Asks.setLocals.bind fun _ => .pure

theorem asks_defineParameters {ps : List Parameter} : Asks (defineParameters b n ps) := by
  induction ps generalizing n with
  | nil => exact .pure
  | cons p ps ih =>
    obtain ⟨t, name⟩ := p
    cases name with
    | none => exact ih
    | some name => exact Asks.define.bind fun _ => ih

def Session (classes : Std.TreeMap Nat LayoutId) (s : Builder) : Prop :=
  ∃ qs, Request.Disciplined qs ∧ Runs (Request.runAll qs) {} () s ∧
    ∀ (k : Nat) (l : LayoutId), classes[k]? = some l → Request.Declares qs l

abbrev State.Continues (s s' : State) : Prop :=
  Session s.classes s.toBuilder → Session s'.classes s'.toBuilder

namespace Session

variable {classes : Std.TreeMap Nat LayoutId} {s t : Builder}

theorem request (h : Session classes s) {q : Request} (hrun : Runs q.run s () t)
    (hq : ∀ l, q.Defines l → ∃ k : Nat, classes[k]? = some l) : Session classes t := by
  obtain ⟨qs, hd, hqs, hclasses⟩ := h
  refine ⟨qs ++ [q], hd.concat fun l hl => ?_, runAll_concat.2 ⟨_, hqs, hrun⟩, fun k l hl => ?_⟩
  · obtain ⟨k, hk⟩ := hq l hl
    exact hclasses k l hk
  · exact (hclasses k l hl).concat q

theorem runAll (h : Session classes s) {qs : List Request} (hqs : ∀ q ∈ qs, ∀ l, ¬q.Defines l)
    (hrun : Runs (Request.runAll qs) s () t) : Session classes t := by
  induction qs generalizing s with
  | nil =>
    obtain rfl := Runs.forM_nil.1 hrun
    exact h
  | cons q qs ih =>
    obtain ⟨u, hq, hrest⟩ := Runs.forM_cons.1 hrun
    exact ih (h.request hq fun l hl => absurd hl (hqs q List.mem_cons_self l))
      (fun p hp => hqs p (List.mem_cons_of_mem q hp)) hrest

theorem asks {α : Type} {x : BuildM α} (hx : Asks x) {a : α} (hrun : Runs x s a t)
    (h : Session classes s) : Session classes t := by
  obtain ⟨qs, hqs, hrun⟩ := hx hrun
  exact h.runAll hqs hrun

end Session

theorem continues_declare {c : ClassDecl} (h : Runs (declare c) s u s') : s.Continues s' := by
  rintro ⟨qs, hd, hqs, hclasses⟩
  obtain rfl := runs_declare.1 h
  have hdeclare : Runs (declareClass c.name) s.toBuilder s.layoutId _ := runs_declareClass.2 ⟨rfl, rfl⟩
  refine ⟨qs ++ [.act (.declareClass c.name)], hd.concat fun l ⟨_, hl⟩ => by simp at hl,
    runAll_concat.2 ⟨_, hqs, Runs.map_iff.2 ⟨_, hdeclare, rfl⟩⟩, fun k l hl => ?_⟩
  simp only [Std.TreeMap.getElem?_insert, Nat.compare_eq_eq] at hl
  split at hl
  · obtain rfl := Option.some.inj hl
    exact ⟨qs, c.name, [], _, _, rfl, hqs, hdeclare⟩
  · exact (hclasses k l hl).concat _

end Lowering

end BlockGraph
