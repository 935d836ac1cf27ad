import BlockGraph.Graph.Violation

namespace BlockGraph

def Operation.form (op : Operation) : Operation :=
  Id.run (op.mapM fun _ => pure ⟨0⟩)

/-- What the operations of a graph mean. Copies are no concern of a machine, and it never learns
which registers the operands of an operation came from. -/
structure Machine where
  Value : Type
  State : Type
  perform : Operation → ValueType → List Value → State → Option (Value × State)
  truth : Value → Option Bool
  target : Value → Option BlockId

namespace Machine

variable (M : Machine)

abbrev Registers := List M.Value

inductive Outcome where
  | halted (state : M.State)
  | jumped (side : Option Bool) (target : M.Value) (arguments : List M.Value) (state : M.State)
  | trapped (state : M.State)

inductive Progress where
  | running (block : BlockId) (arguments : List M.Value) (state : M.State)
  | halted (state : M.State)
  | trapped (state : M.State)

variable {M}

def read (regs : M.Registers) (r : Register) : Option M.Value := regs[r.index]?

def readAll (regs : M.Registers) (rs : List Register) : Option (List M.Value) :=
  rs.mapM (read regs)

def value (i : Instruction) (regs : M.Registers) (s : M.State) : Option (M.Value × M.State) :=
  match i.operation.copy? with
  | some r => (read regs r).map (·, s)
  | none => (readAll regs i.operation.operands).bind fun vs => M.perform i.operation.form i.type vs s

def carryOut : List Instruction → M.Registers → M.State → Except M.State (M.Registers × M.State)
  | [], regs, s => .ok (regs, s)
  | i :: rest, regs, s =>
    match value i regs s with
    | some (v, s') => carryOut rest (regs ++ [v]) s'
    | none => .error s

def jump (side : Option Bool) (e : Edge) (regs : M.Registers) (s : M.State) : M.Outcome :=
  match read regs e.target, readAll regs e.arguments with
  | some v, some vs => .jumped side v vs s
  | _, _ => .trapped s

def leave (t : Terminator) (regs : M.Registers) (s : M.State) : M.Outcome :=
  match t with
  | .goto e => jump none e regs s
  | .branch c onTrue onFalse =>
    match (read regs c).bind M.truth with
    | some side => jump (some side) (if side then onTrue else onFalse) regs s
    | none => .trapped s

section CarryOut

variable {i : Instruction} {is js : List Instruction} {regs regs' vs : M.Registers} {s s' : M.State}
  {r : Register} {v : M.Value}

theorem read_append (h : read regs r = some v) (vs : M.Registers) :
    read (regs ++ vs) r = some v := by
  obtain ⟨hlt, -⟩ := List.getElem?_eq_some_iff.1 h
  exact (List.getElem?_append_left hlt).trans h

theorem carryOut_cons_eq_ok :
    carryOut (i :: is) regs s = .ok (regs', s') ↔
      ∃ v s₁, value i regs s = some (v, s₁) ∧ carryOut is (regs ++ [v]) s₁ = .ok (regs', s') := by
  rw [carryOut]
  split <;> simp [*, and_assoc]

theorem carryOut_append_eq_ok :
    carryOut (is ++ js) regs s = .ok (regs', s') ↔
      ∃ regs₁ s₁, carryOut is regs s = .ok (regs₁, s₁) ∧ carryOut js regs₁ s₁ = .ok (regs', s') := by
  induction is generalizing regs s with
  | nil => simp [carryOut, and_assoc]
  | cons i is ih =>
    simp only [List.cons_append, carryOut_cons_eq_ok, ih]
    constructor
    · rintro ⟨v, s₁, hv, regs₂, s₂, his, hjs⟩
      exact ⟨regs₂, s₂, ⟨v, s₁, hv, his⟩, hjs⟩
    · rintro ⟨regs₂, s₂, ⟨v, s₁, hv, his⟩, hjs⟩
      exact ⟨v, s₁, hv, regs₂, s₂, his, hjs⟩

theorem carryOut_registers (h : carryOut is regs s = .ok (regs', s')) :
    ∃ vs, regs' = regs ++ vs ∧ vs.length = is.length := by
  induction is generalizing regs s with
  | nil =>
    obtain ⟨rfl, -⟩ : regs = regs' ∧ s = s' := by simpa [carryOut] using h
    exact ⟨[], by simp, rfl⟩
  | cons i is ih =>
    obtain ⟨v, s₁, -, his⟩ := carryOut_cons_eq_ok.1 h
    obtain ⟨vs, rfl, hlen⟩ := ih his
    exact ⟨v :: vs, by simp, by simp [hlen]⟩

end CarryOut

end Machine

namespace Block

variable {M : Machine}

def complete (b : Block) (regs : M.Registers) (s : M.State) : M.Outcome :=
  match Machine.carryOut (b.instructions.drop (regs.length - b.parameters.length)) regs s with
  | .error s => .trapped s
  | .ok (regs, s) =>
    match b.terminator with
    | some t => Machine.leave t regs s
    | none => if b.isFinal then .halted s else .trapped s

def exec (b : Block) (arguments : List M.Value) (s : M.State) : M.Outcome :=
  if arguments.length = b.parameters.length then b.complete arguments s else .trapped s

theorem exec_eq_jumped {b : Block} {e : Edge} (he : b.terminator = some (.goto e))
    {arguments vs : List M.Value} {s s' : M.State} {side : Option Bool} {v : M.Value} :
    b.exec arguments s = .jumped side v vs s' ↔
      arguments.length = b.parameters.length ∧ side = none ∧ ∃ regs,
        Machine.carryOut b.instructions arguments s = .ok (regs, s') ∧
        Machine.read regs e.target = some v ∧ Machine.readAll regs e.arguments = some vs := by
  rw [exec]
  split
  case isFalse hlen => simp [hlen]
  case isTrue hlen =>
    simp only [complete, hlen, Nat.sub_self, List.drop_zero, he, Machine.leave, true_and]
    cases hcarry : Machine.carryOut b.instructions arguments s with
    | error s₁ => simp
    | ok p =>
      obtain ⟨regs, s₁⟩ := p
      cases hv : Machine.read regs e.target <;> cases hvs : Machine.readAll regs e.arguments <;>
        simp [Machine.jump, *, and_assoc]
      grind

end Block

namespace Graph

variable {M : Machine}

def exec (g : Graph) (b : BlockId) (arguments : List M.Value) (s : M.State) : M.Outcome :=
  match g.block? b with
  | some block => block.exec arguments s
  | none => .trapped s

def follow (next : BlockId → List M.Value → M.State → M.Progress) : M.Outcome → M.Progress
  | .halted s => .halted s
  | .trapped s => .trapped s
  | .jumped _ v arguments s =>
    match M.target v with
    | some b => next b arguments s
    | none => .trapped s

def run (g : Graph) : Nat → BlockId → List M.Value → M.State → M.Progress
  | 0, b, arguments, s => .running b arguments s
  | n + 1, b, arguments, s => follow (g.run n) (g.exec b arguments s)

end Graph

end BlockGraph
