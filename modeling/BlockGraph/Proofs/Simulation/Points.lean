import BlockGraph.Proofs.Simulation.Machine

/-!
Points of a run. A run is before a block, or it is inside of one and has values for the first of its
registers; it goes on by single instructions and jumps. What a run does from a point can follow the
outcome of an evaluation: it gets to a matching point, fails in the same state, or goes on for as
many jumps as there was fuel.
-/

namespace BlockGraph

namespace Machine

inductive Point (M : Machine) where
  | entry (b : BlockId) (arguments : List M.Value) (s : M.State)
  | inside (b : BlockId) (regs : M.Registers) (s : M.State)

end Machine

namespace Graph

variable {M : Machine} (g : Graph)

inductive Goes : Nat → M.Point → M.Point → Prop
  | refl (x : M.Point) : Goes 0 x x
  | enter {b : BlockId} {B : Block} {args : List M.Value} {s : M.State} {n : Nat} {y : M.Point}
      (hB : g.block? b = some B) (hargs : args.length = B.parameters.length)
      (h : Goes n (.inside b args s) y) : Goes n (.entry b args s) y
  | carry {b : BlockId} {B : Block} {regs : M.Registers} {s s' : M.State} {i : Instruction}
      {v : M.Value} {n : Nat} {y : M.Point} (hB : g.block? b = some B)
      (hregs : B.parameters.length ≤ regs.length)
      (hi : B.instructions[regs.length - B.parameters.length]? = some i)
      (hv : Machine.value i regs s = some (v, s')) (h : Goes n (.inside b (regs ++ [v]) s') y) :
      Goes n (.inside b regs s) y
  | jump {b c : BlockId} {B : Block} {regs : M.Registers} {s : M.State} {t : Terminator}
      {side : Option Bool} {v : M.Value} {args : List M.Value} {n : Nat} {y : M.Point}
      (hB : g.block? b = some B) (hregs : regs.length = B.registerCount)
      (ht : B.terminator = some t) (hleave : Machine.leave t regs s = .jumped side v args s)
      (hc : M.target v = some c) (h : Goes n (.entry c args s) y) : Goes (n + 1) (.inside b regs s) y

inductive Traps : M.Point → M.State → Prop
  | arguments {b : BlockId} {B : Block} {args : List M.Value} {s : M.State}
      (hB : g.block? b = some B) (hargs : args.length ≠ B.parameters.length) :
      Traps (.entry b args s) s
  | instruction {b : BlockId} {B : Block} {regs : M.Registers} {s : M.State} {i : Instruction}
      (hB : g.block? b = some B) (hregs : B.parameters.length ≤ regs.length)
      (hi : B.instructions[regs.length - B.parameters.length]? = some i)
      (hv : Machine.value i regs s = none) : Traps (.inside b regs s) s
  | leave {b : BlockId} {B : Block} {regs : M.Registers} {s : M.State} {t : Terminator}
      (hB : g.block? b = some B) (hregs : regs.length = B.registerCount)
      (ht : B.terminator = some t) (hleave : Machine.leave t regs s = .trapped s) :
      Traps (.inside b regs s) s
  | target {b : BlockId} {B : Block} {regs : M.Registers} {s : M.State} {t : Terminator}
      {side : Option Bool} {v : M.Value} {args : List M.Value}
      (hB : g.block? b = some B) (hregs : regs.length = B.registerCount)
      (ht : B.terminator = some t) (hleave : Machine.leave t regs s = .jumped side v args s)
      (hv : M.target v = none) : Traps (.inside b regs s) s

variable {g}

theorem Goes.trans {n k : Nat} {x y z : M.Point} (h : g.Goes n x y) (hk : g.Goes k y z) :
    g.Goes (k + n) x z := by
  induction h with
  | refl => exact hk
  | enter hB hargs _ ih => exact .enter hB hargs (ih hk)
  | carry hB hregs hi hv _ ih => exact .carry hB hregs hi hv (ih hk)
  | jump hB hregs ht hleave hc _ ih => exact .jump hB hregs ht hleave hc (ih hk)

theorem goes_carryOut {b : BlockId} {B : Block} (hB : g.block? b = some B) {done is : List Instruction}
    (hwithin : done ++ is <+: B.instructions) (regs : M.Registers) (s : M.State)
    (hregs : regs.length = B.parameters.length + done.length) :
    match Machine.carryOut is regs s with
    | .ok (regs', s') => g.Goes 0 (.inside b regs s) (.inside b regs' s')
    | .error s' => ∃ y, g.Goes 0 (.inside b regs s) y ∧ g.Traps y s' := by
  induction is generalizing done regs s with
  | nil => exact .refl _
  | cons i is ih =>
    have hi : B.instructions[regs.length - B.parameters.length]? = some i := by
      obtain ⟨post, hpost⟩ := hwithin
      rw [← hpost, hregs, Nat.add_sub_cancel_left]
      simp
    have hle : B.parameters.length ≤ regs.length := by omega
    rw [Machine.carryOut]
    cases hv : Machine.value i regs s with
    | none => exact ⟨_, .refl _, .instruction hB hle hi hv⟩
    | some p =>
      obtain ⟨v, s'⟩ := p
      have hdone : done ++ [i] ++ is <+: B.instructions := by simpa using hwithin
      have hlen : (regs ++ [v]).length = B.parameters.length + (done ++ [i]).length := by
        simp
        omega
      have hrest := ih hdone (regs ++ [v]) s' hlen
      dsimp only
      split at hrest
      · exact .carry hB hle hi hv hrest
      · obtain ⟨y, hgoes, htraps⟩ := hrest
        exact ⟨y, .carry hB hle hi hv hgoes, htraps⟩

def after (g : Graph) (n : Nat) : M.Point → M.Progress
  | .entry b args s => g.run (n + 1) b args s
  | .inside b regs s =>
    match g.block? b with
    | some B => follow (g.run n) (B.complete regs s)
    | none => .trapped s

theorem complete_of_carry {B : Block} {regs : M.Registers} {s : M.State} {i : Instruction}
    (hregs : B.parameters.length ≤ regs.length)
    (hi : B.instructions[regs.length - B.parameters.length]? = some i) :
    B.complete regs s =
      match Machine.value i regs s with
      | some (v, s') => B.complete (regs ++ [v]) s'
      | none => .trapped s := by
  obtain ⟨hlt, hget⟩ := List.getElem?_eq_some_iff.1 hi
  rw [Block.complete, List.drop_eq_getElem_cons hlt, hget, Machine.carryOut]
  cases hv : Machine.value i regs s with
  | none => rfl
  | some p =>
    obtain ⟨v, s'⟩ := p
    simp only [Block.complete, List.length_append, List.length_cons, List.length_nil]
    rw [show regs.length + (0 + 1) - B.parameters.length =
      regs.length - B.parameters.length + 1 by omega]

theorem complete_of_end {B : Block} {regs : M.Registers} {s : M.State}
    (hregs : regs.length = B.registerCount) :
    B.complete regs s =
      match B.terminator with
      | some t => Machine.leave t regs s
      | none => if B.isFinal then .halted s else .trapped s := by
  have hdrop : B.instructions.drop (regs.length - B.parameters.length) = [] := by
    simp [hregs, Block.registerCount]
  rw [Block.complete, hdrop]
  rfl

theorem after_inside {b : BlockId} {B : Block} (hB : g.block? b = some B) (n : Nat)
    (regs : M.Registers) (s : M.State) :
    g.after n (.inside b regs s) = follow (g.run n) (B.complete regs s) := by
  rw [Graph.after, hB]

theorem Goes.after {n : Nat} {x y : M.Point} (h : g.Goes n x y) (k : Nat) :
    g.after (k + n) x = g.after k y := by
  induction h with
  | refl => rfl
  | enter hB hargs _ ih =>
    rw [← ih, after_inside hB, Graph.after, run, exec, hB]
    simp [Block.exec, hargs]
  | carry hB hregs hi hv _ ih =>
    rw [← ih, after_inside hB, after_inside hB, complete_of_carry hregs hi, hv]
  | jump hB hregs ht hleave hc _ ih =>
    rw [← ih, after_inside hB, complete_of_end hregs, ht]
    dsimp only
    rw [hleave, follow, hc]
    rfl

theorem Traps.after {x : M.Point} {s : M.State} (h : g.Traps x s) (k : Nat) :
    g.after k x = .trapped s := by
  cases h with
  | arguments hB hargs => simp [Graph.after, run, exec, hB, Block.exec, hargs, follow]
  | instruction hB hregs hi hv =>
    rw [after_inside hB, complete_of_carry hregs hi, hv]
    rfl
  | leave hB hregs ht hleave =>
    rw [after_inside hB, complete_of_end hregs, ht]
    dsimp only
    rw [hleave]
    rfl
  | target hB hregs ht hleave hv =>
    rw [after_inside hB, complete_of_end hregs, ht]
    dsimp only
    rw [hleave, follow, hv]

def upto (g : Graph) : Nat → M.Point → M.Progress
  | n, .entry b args s => g.run n b args s
  | 0, .inside _ _ s => .trapped s
  | n + 1, .inside b regs s => g.after n (.inside b regs s)

theorem Goes.running {n : Nat} {x : M.Point} {c : BlockId} {args : List M.Value} {s' : M.State}
    (h : g.Goes n x (.entry c args s')) : g.upto n x = .running c args s' := by
  generalize hy : Machine.Point.entry c args s' = y at h
  induction h with
  | refl x => subst hy; rfl
  | @enter b B args₀ s n y hB hargs _ ih =>
    have hrun := ih hy
    cases n with
    | zero => simp [upto] at hrun
    | succ n =>
      rw [upto, after_inside hB] at hrun
      simpa [upto, run, exec, hB, Block.exec, hargs] using hrun
  | @carry b B regs s s₁ i v n y hB hregs hi hv _ ih =>
    have hrun := ih hy
    cases n with
    | zero => simp [upto] at hrun
    | succ n =>
      rw [upto, after_inside hB] at hrun ⊢
      rwa [complete_of_carry hregs hi, hv]
  | jump hB hregs ht hleave hc _ ih =>
    rw [upto, after_inside hB, complete_of_end hregs, ht]
    dsimp only
    rw [hleave, follow, hc]
    exact ih hy

end Graph

section Simulates

open Interpretation

variable {I : Interpretation} {L : Lowered} {α β : Type}

/-- From the point, a run does what an evaluation with this outcome did. If that used up its fuel, the
run goes on for at least `n` jumps. -/
def Simulates (L : Lowered) (n : Nat) (x : (I.machine L).Point) (r : I.Outcome α)
    (Q : α → I.Variables → I.State → (I.machine L).Point → Prop) : Prop :=
  match r with
  | .done a vs σ => ∃ k y, L.graph.Goes k x y ∧ Q a vs σ y
  | .failed σ => ∃ k y cs, L.graph.Goes k x y ∧ L.graph.Traps y ⟨σ, cs⟩
  | .unfinished σ => ∃ k b args cs, n ≤ k ∧ L.graph.Goes k x (.entry b args ⟨σ, cs⟩)

namespace Simulates

variable {n k : Nat} {x y : (I.machine L).Point} {r : I.Outcome α}
  {P Q : α → I.Variables → I.State → (I.machine L).Point → Prop}
  {R : β → I.Variables → I.State → (I.machine L).Point → Prop} {vs : I.Variables} {σ : I.State}

theorem done {a : α} (h : Q a vs σ x) : Simulates L n x ((pure a : I.Eval α) vs σ) Q :=
  ⟨0, x, .refl x, h⟩

theorem goes (hk : L.graph.Goes k x y) (h : Simulates L n y r Q) : Simulates L (n + k) x r Q := by
  cases r with
  | done a vs σ =>
    obtain ⟨j, z, hj, hQ⟩ := h
    exact ⟨_, z, hk.trans hj, hQ⟩
  | failed σ =>
    obtain ⟨j, z, cs, hj, htraps⟩ := h
    exact ⟨_, z, cs, hk.trans hj, htraps⟩
  | unfinished σ =>
    obtain ⟨j, b, args, cs, hn, hj⟩ := h
    exact ⟨_, b, args, cs, by omega, hk.trans hj⟩

theorem mono (h : Simulates L n x r Q) (hk : k ≤ n) : Simulates L k x r Q := by
  cases r with
  | unfinished σ =>
    obtain ⟨j, b, args, cs, hn, hj⟩ := h
    exact ⟨j, b, args, cs, Nat.le_trans hk hn, hj⟩
  | _ => exact h

theorem imp (h : Simulates L n x r P) (hQ : ∀ a vs σ y, P a vs σ y → Q a vs σ y) :
    Simulates L n x r Q := by
  cases r with
  | done a vs σ =>
    obtain ⟨j, z, hj, hP⟩ := h
    exact ⟨j, z, hj, hQ a vs σ z hP⟩
  | _ => exact h

theorem goesOn (h : Simulates L n x r P)
    (hQ : ∀ a vs σ y, P a vs σ y → ∃ k z, L.graph.Goes k y z ∧ Q a vs σ z) : Simulates L n x r Q := by
  cases r with
  | done a vs σ =>
    obtain ⟨j, y, hj, hP⟩ := h
    obtain ⟨k, z, hk, hz⟩ := hQ a vs σ y hP
    exact ⟨_, z, hj.trans hk, hz⟩
  | _ => exact h

theorem bind {u : I.Eval α} {f : α → I.Eval β} (hu : Simulates L n x (u vs σ) P)
    (hf : ∀ a vs σ y, P a vs σ y → Simulates L n y (f a vs σ) R) :
    Simulates L n x ((u >>= f) vs σ) R := by
  change Simulates L n x (match u vs σ with
    | .done a vs σ => f a vs σ
    | .failed σ => .failed σ
    | .unfinished σ => .unfinished σ) R
  cases hr : u vs σ with
  | done a vs' σ' =>
    rw [hr] at hu
    obtain ⟨j, z, hj, hP⟩ := hu
    exact ((hf a vs' σ' z hP).goes hj).mono (by omega)
  | failed σ' =>
    rw [hr] at hu
    exact hu
  | unfinished σ' =>
    rw [hr] at hu
    exact hu

end Simulates

end Simulates

end BlockGraph
