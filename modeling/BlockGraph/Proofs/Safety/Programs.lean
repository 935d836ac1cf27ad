import BlockGraph.Proofs.Linearity.Programs
import BlockGraph.Proofs.Safety.Statements
import BlockGraph.Proofs.Totality.Programs

namespace BlockGraph

namespace Lowering

open Builder

variable {p : Program}

theorem stands_initial : Stands none [] initial ⟨0⟩ ⟨none, [], 0⟩ where
  returning := initial_returning
  returns := nofun
  shape := ⟨{ id := ⟨0⟩, parameters := [] }, by rw [initial_block?, if_pos rfl], rfl, .nil,
    by simp, rfl⟩
  apart := ⟨[], by simpa [initial, waiting] using initial_opens⟩
  loops := .nil
  bases := by simp

theorem meets_lowerProgram (hp : p.DistinctFunctions) :
    Meets Fault.Excused (lowerProgram p) {} fun _ _ => True := by
  have hlayout : Runs (liftM (returnLayout (.prim .void)) : LowerM LayoutId) {} ⟨0⟩
      { initial with graph := { initial.graph with blocks := [] } } := rfl
  have hentry : Runs (liftM (addBlock []) : LowerM BlockId)
      { initial with graph := { initial.graph with blocks := [] } } ⟨0⟩ initial := rfl
  refine .run_bind hlayout (.run_bind hentry ?_)
  refine (safe_lowerScope p.body hp stands_initial initial_tidy).bind ?_
  rintro o s - ⟨hs, -, hends⟩
  have hend {s : State} : Meets Fault.Excused (do
      let g := (← get).graph
      tell (.lowered g.blocks.length g.layouts.length)
      return (⟨0⟩ : BlockId) : LowerM BlockId) s fun _ _ => True := by
    refine .run_bind (Runs.get_iff.2 ⟨rfl, rfl⟩) ?_
    exact .run_bind (a := ()) (Runs.lift_build_iff.2 ⟨_, runs_tell.2 rfl, rfl⟩) (.pure trivial)
  cases o with
  | none => exact hend
  | some b =>
    exact (tidies_lift (safe_finish (hends.shape b rfl)) hs).bind fun _ _ _ _ => hend

end Lowering

open Lowering

/-- A program whose functions have identities of their own is lowered, or it is refused with a fault of
its own: whatever it is, no block is left twice or asked for a register, a variable, an operand or a
return slot that it does not have. A jump is refused if it means no loop, and changes the loop that it
means otherwise, at the index at which that is found. -/
theorem Program.lower_not_isInternal {p : Program} (hp : p.DistinctFunctions) :
    ((∃ L, p.lower.result = .ok L) ∨ ∃ e, p.lower.result = .error e ∧ e.isInternal = false) ∧
      ∀ (b : BlockId) (kind : LoopJump) (label : Option String) (s : State),
        (s.loops.find? (·.matches label) = none ∧
          ((lowerJump b kind label).run s).result =
            .error (label.elim .noEnclosingLoop .unknownLabel)) ∨
        ∃ f, s.loops.find? (·.matches label) = some f ∧
          s.loops[s.loops.findIdx (·.matches label)]? = some f ∧
          ∀ s', Runs (lowerJump b kind label) s () s' →
            s'.loops = s.loops.set (s.loops.findIdx (·.matches label)) (f.enqueue kind b) := by
  refine ⟨?_, fun b kind label s => ?_⟩
  · have hmeets := meets_lowerProgram hp
    cases hresult : ((lowerProgram p).run {}).result with
    | ok a => exact .inl ⟨_, Logged.bind_result_eq_ok.2 ⟨a, hresult, rfl⟩⟩
    | error e => exact .inr ⟨e, by simp [lower, Bind.bind, hresult], hmeets.error hresult⟩
  · cases hf : s.loops.find? (·.matches label) with
    | none =>
      refine .inl ⟨rfl, ?_⟩
      have herror : (lowerJump b kind label).run s =
          (throw (label.elim .noEnclosingLoop .unknownLabel) : LowerM Unit).run s := by
        simp only [lowerJump, StateT.run_bind, StateT.run_get, pure_bind, hf]
      rw [herror]
      cases label <;> rfl
    | some f =>
      have hat := List.find?_eq_getElem?_findIdx.symm.trans hf
      exact .inr ⟨f, rfl, hat, fun s' hrun => loops_lowerJump hrun hat⟩

def hasty : Program := ⟨{
  functions := [Sample.square]
  statements := [
    Sample.define Sample.byte "x" none,
    .cond (Expr.mkCompare .lt (Expr.ofU8 1) (Expr.ofU8 2))
      (some { statements := [.expr (Expr.mkAssign (Sample.byteVar "x")
        (Expr.mkCall Sample.square.reference [Expr.ofU8 3]))] })
      none,
    .expr (Sample.byteVar "x")] }⟩

theorem Program.lower_not_isInternal_of_hasty :
    hasty.lower.result = .error (.uninitializedSymbol "x") ∧
      ∃ e, hasty.lower.result = .error e ∧ e.isInternal = false := by
  have hrefused : (match hasty.lower.result with
      | .ok _ => false
      | .error e => e == .uninitializedSymbol "x") = true := by decide +kernel
  obtain ⟨⟨L, hL⟩ | ⟨e, he, hinternal⟩, -⟩ := lower_not_isInternal (p := hasty) (by decide)
  · simp [hL] at hrefused
  · obtain rfl : e = .uninitializedSymbol "x" := by simpa [he] using hrefused
    exact ⟨he, _, he, hinternal⟩

end BlockGraph
