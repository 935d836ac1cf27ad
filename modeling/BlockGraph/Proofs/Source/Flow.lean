import BlockGraph.Proofs.Source.Contexts

namespace BlockGraph

structure Jump where
  kind : LoopJump
  label : Option String
  deriving DecidableEq

def Jump.means (j : Jump) (label : Option String) : Bool := j.label.isNone || label = j.label

structure Flow where
  past : Bool
  jumps : List Jump
  deriving DecidableEq

namespace Flow

def through : Flow := ⟨true, []⟩

def andThen (f g : Flow) : Flow := if f.past then ⟨g.past, f.jumps ++ g.jumps⟩ else f

def either (f g : Flow) : Flow := ⟨f.past || g.past, f.jumps ++ g.jumps⟩

def repeats (body : Flow) (label : Option String) : Bool :=
  body.past || body.jumps.any fun j => j.means label && j.kind = .again

def leaves (body : Flow) (label : Option String) : Bool :=
  body.jumps.any fun j => j.means label && j.kind = .leave

def loop (tested : Bool) (label : Option String) (condition : Expr) (body : Flow) : Flow where
  past := tested || body.leaves label || (body.repeats label && !condition.isTrue)
  jumps := body.jumps.filter (!·.means label)

end Flow

def LoopKind.tests (kind : LoopKind) (condition : Expr) : Bool :=
  kind = .testFirst && !condition.isTrue

mutual

def Scope.flow : Scope → Flow
  | ⟨_, _, statements⟩ => stmtsFlow statements

def stmtsFlow : List Stmt → Flow
  | [] => .through
  | s :: rest => s.flow.andThen (stmtsFlow rest)

def Stmt.flow : Stmt → Flow
  | .scope body => body.flow
  | .jump kind label => ⟨false, [⟨kind, label⟩]⟩
  | .define _ _ | .expr _ => .through
  | .loop kind label condition body => body.flow.loop (kind.tests condition) label condition
  | .cond _ first second => (armFlow first).either (armFlow second)
  | .ret _ => ⟨false, []⟩

def armFlow : Option Scope → Flow
  | some body => body.flow
  | none => .through

end

mutual

/-- The functions that the code declares where control can come to. The body of such a function is
code of this kind as well. -/
def Scope.live : Scope → List FunctionDecl
  | ⟨_, functions, statements⟩ => functions ++ functionsLive functions ++ stmtsLive statements

def functionsLive : List FunctionDecl → List FunctionDecl
  | [] => []
  | f :: fs => f.live ++ functionsLive fs

def FunctionDecl.live : FunctionDecl → List FunctionDecl
  | ⟨_, _, _, _, body⟩ => body.live

def stmtsLive : List Stmt → List FunctionDecl
  | [] => []
  | s :: rest => s.live ++ if s.flow.past then stmtsLive rest else []

def Stmt.live : Stmt → List FunctionDecl
  | .scope body => body.live
  | .loop _ _ _ body => body.live
  | .cond _ first second => armLive first ++ armLive second
  | .jump _ _ | .define _ _ | .expr _ | .ret _ => []

def armLive : Option Scope → List FunctionDecl
  | some body => body.live
  | none => []

end

def Program.function? (p : Program) (f : FunctionId) : Option FunctionDecl :=
  p.body.live.find? (·.id = f)

mutual

def Expr.Valued : Expr → Prop
  | .literal _ _ | .var _ _ | .function _ _ => True
  | .unary _ a _ | .cast _ a _ | .field a _ _ | .newArray a _ => a.type.isVoid = false ∧ a.Valued
  | .binary _ a b _ | .logic _ a b _ =>
    (a.type.isVoid = false ∧ a.Valued) ∧ b.type.isVoid = false ∧ b.Valued
  | .assign a b _ | .compound _ a b _ => a.Valued ∧ b.type.isVoid = false ∧ b.Valued
  | .step _ a _ => a.Valued
  | .conditional c a b _ =>
    (c.type.isVoid = false ∧ c.Valued) ∧ (a.type.isVoid = false ∧ a.Valued) ∧
      b.type.isVoid = false ∧ b.Valued
  | .call callee arguments _ => (callee.type.isVoid = false ∧ callee.Valued) ∧ areValued arguments
  | .new _ arguments _ | .native _ arguments _ => areValued arguments

def areValued : List Expr → Prop
  | [] => True
  | e :: es => (e.type.isVoid = false ∧ e.Valued) ∧ areValued es

end

def Expr.HasValue (e : Expr) : Prop := e.type.isVoid = false ∧ e.Valued

mutual

def Scope.Valued : Scope → Prop
  | ⟨_, functions, statements⟩ => functionsValued functions ∧ stmtsValued statements

def functionsValued : List FunctionDecl → Prop
  | [] => True
  | f :: fs => f.Valued ∧ functionsValued fs

def FunctionDecl.Valued : FunctionDecl → Prop
  | ⟨_, _, _, _, body⟩ => body.Valued

def stmtsValued : List Stmt → Prop
  | [] => True
  | s :: rest => s.Valued ∧ (s.flow.past = true → stmtsValued rest)

def Stmt.Valued : Stmt → Prop
  | .scope body => body.Valued
  | .jump _ _ => True
  | .define _ clauses => ∀ c ∈ clauses, ∀ e ∈ c.value, e.HasValue
  | .loop kind label condition body => body.Valued ∧
      (kind.tests condition = true ∨
        body.flow.repeats label = true ∧ condition.isTrue = false → condition.HasValue)
  | .expr e => e.Valued
  | .cond condition first second => condition.HasValue ∧ armValued first ∧ armValued second
  | .ret value => ∀ e ∈ value, e.HasValue

def armValued : Option Scope → Prop
  | some body => body.Valued
  | none => True

end

structure Tally where
  label : Option String
  noted : Option (Bool × Bool)

namespace Tally

def note (kind : LoopJump) (t : Tally) : Tally :=
  { t with noted := t.noted.map fun (left, again) =>
    match kind with
    | .leave => (true, again)
    | .again => (left, true) }

def noteJump (j : Jump) : List Tally → List Tally
  | [] => []
  | t :: ts => if j.means t.label then t.note j.kind :: ts else t :: noteJump j ts

def noteJumps (js : List Jump) (ts : List Tally) : List Tally :=
  js.foldl (fun ts j => noteJump j ts) ts

@[simp] theorem note_label (kind : LoopJump) (t : Tally) : (t.note kind).label = t.label := rfl

@[simp] theorem note_leave (label : Option String) (left again : Bool) :
    note .leave ⟨label, some (left, again)⟩ = ⟨label, some (true, again)⟩ := rfl

@[simp] theorem note_again (label : Option String) (left again : Bool) :
    note .again ⟨label, some (left, again)⟩ = ⟨label, some (left, true)⟩ := rfl

theorem noteJumps_append (js js' : List Jump) (ts : List Tally) :
    noteJumps (js ++ js') ts = noteJumps js' (noteJumps js ts) := List.foldl_append

theorem noteJumps_cons (js : List Jump) (t : Tally) (ts : List Tally) :
    noteJumps js (t :: ts) = (js.filter (·.means t.label)).foldl (fun t j => t.note j.kind) t ::
      noteJumps (js.filter (!·.means t.label)) ts := by
  induction js generalizing t ts with
  | nil => rfl
  | cons j js ih =>
    have hstep : noteJumps (j :: js) (t :: ts) = noteJumps js (noteJump j (t :: ts)) := rfl
    rw [hstep, noteJump]
    by_cases hj : j.means t.label = true
    · rw [if_pos hj, ih]
      simp [hj]
    · rw [if_neg hj, ih]
      simp [hj, noteJumps]

theorem noteJumps_innermost (body : Flow) (label : Option String) (ts : List Tally) :
    ∃ again, noteJumps body.jumps (⟨label, some (false, false)⟩ :: ts) =
      ⟨label, some (body.leaves label, again)⟩ ::
        noteJumps (body.jumps.filter (!·.means label)) ts ∧
      body.repeats label = (body.past || again) := by
  have hfold : ∀ (js : List Jump) (left again : Bool),
      js.foldl (fun (t : Tally) j => t.note j.kind) ⟨label, some (left, again)⟩ =
        ⟨label, some (left || js.any (·.kind = .leave), again || js.any (·.kind = .again))⟩ := by
    intro js
    induction js with
    | nil => simp
    | cons j js ih =>
      intro left again
      cases hkind : j.kind <;> simp [hkind, ih]
  refine ⟨_, ?_, rfl⟩
  rw [noteJumps_cons, hfold]
  simp [Flow.leaves, List.any_filter]

theorem noteJumps_tested (js : List Jump) (label : Option String) (ts : List Tally) :
    noteJumps js (⟨label, none⟩ :: ts) =
      ⟨label, none⟩ :: noteJumps (js.filter (!·.means label)) ts := by
  have hfold : ∀ js : List Jump,
      js.foldl (fun (t : Tally) j => t.note j.kind) ⟨label, none⟩ = ⟨label, none⟩ := by
    intro js
    induction js with
    | nil => rfl
    | cons j js ih => exact ih
  rw [noteJumps_cons, hfold]

end Tally

namespace Analysis

open Tally

def Loop.tally (l : Loop) : Tally := ⟨l.label, some (!l.leaving.isEmpty, !l.repeating.isEmpty)⟩

section Checks

variable {D : Declared} {Γ Γ' : Context}

mutual

theorem valued_of_checkExpr {Γ Γ' : Context} : (e : Expr) → checkExpr D Γ e = some Γ' → e.Valued
  | .literal _ _, _ | .var _ _, _ | .function _ _, _ => trivial
  | .unary _ operand t, h => by
    simp only [checkExpr, guard_bind_eq_some, asValue_eq_some] at h
    exact ⟨h.2.1, valued_of_checkExpr operand h.2.2⟩
  | .binary op left right t, h => by
    rw [checkExpr] at h
    simp only [↓guard_bind_eq_some, bind_eq_some, asValue_eq_some] at h
    obtain ⟨-, Γ₁, ⟨hleft, hcheck⟩, hright, hcheck'⟩ := h
    exact ⟨⟨hleft, valued_of_checkExpr left hcheck⟩, hright, valued_of_checkExpr right hcheck'⟩
  | .logic op left right t, h => by simp [checkExpr] at h
  | .cast op operand t, h => by
    simp only [checkExpr, guard_bind_eq_some, asValue_eq_some] at h
    exact ⟨h.2.1, valued_of_checkExpr operand h.2.2⟩
  | .field object index t, h => by
    simp only [checkExpr, guard_bind_eq_some, asValue_eq_some] at h
    exact ⟨h.2.1, valued_of_checkExpr object h.2.2⟩
  | .assign target value t, h => by
    rw [checkExpr] at h
    simp only [↓guard_bind_eq_some, bind_eq_some, asValue_eq_some] at h
    obtain ⟨-, Γ₁, htarget, Γ₂, ⟨hvoid, hvalue⟩, -⟩ := h
    exact ⟨valued_of_checkTarget target htarget, hvoid, valued_of_checkExpr value hvalue⟩
  | .compound _ target value t, h => by
    rw [checkExpr] at h
    simp only [↓guard_bind_eq_some, bind_eq_some, asValue_eq_some] at h
    obtain ⟨-, Γ₁, htarget, -, hvoid, hvalue⟩ := h
    exact ⟨valued_of_checkTarget target htarget, hvoid, valued_of_checkExpr value hvalue⟩
  | .step _ target t, h => by
    rw [checkExpr] at h
    simp only [↓guard_bind_eq_some, bind_eq_some] at h
    obtain ⟨-, Γ₁, htarget, -⟩ := h
    exact valued_of_checkTarget target htarget
  | .conditional condition first second t, h => by
    rw [checkExpr] at h
    simp only [↓guard_bind_eq_some, bind_eq_some, asValue_eq_some] at h
    obtain ⟨⟨hbool, -⟩, Γ₁, hcond, Γ₂, ⟨hvoid, hfirst⟩, Γ₃, ⟨hvoid', hsecond⟩, -⟩ := h
    exact ⟨⟨by rw [hbool]; rfl, valued_of_checkExpr condition hcond⟩,
      ⟨hvoid, valued_of_checkExpr first hfirst⟩, hvoid', valued_of_checkExpr second hsecond⟩
  | .call callee arguments t, h => by
    rw [checkExpr] at h
    simp only [↓guard_bind_eq_some, bind_eq_some] at h
    obtain ⟨htype, Γ₁, hcallee, hargs⟩ := h
    exact ⟨⟨by rw [htype]; rfl, valued_of_checkExpr callee hcallee⟩,
      valued_of_checkValues arguments hargs⟩
  | .new c arguments t, h => by
    rw [checkExpr] at h
    simp only [↓guard_bind_eq_some] at h
    exact valued_of_checkValues arguments h.2
  | .newArray length t, h => by
    simp only [checkExpr, guard_bind_eq_some, asValue_eq_some] at h
    exact ⟨h.2.1, valued_of_checkExpr length h.2.2⟩
  | .native _ arguments t, h => by
    rw [checkExpr] at h
    simp only [↓guard_bind_eq_some] at h
    exact valued_of_checkValues arguments h.2

theorem valued_of_checkValues {Γ Γ' : Context} :
    (es : List Expr) → checkValues D Γ es = some Γ' → areValued es
  | [], _ => trivial
  | e :: es, h => by
    simp only [checkValues, bind_eq_some, asValue_eq_some] at h
    obtain ⟨Γ₁, ⟨hvoid, he⟩, hes⟩ := h
    exact ⟨⟨hvoid, valued_of_checkExpr e he⟩, valued_of_checkValues es hes⟩

theorem valued_of_checkTarget {Γ Γ' : Context} :
    (e : Expr) → checkTarget D Γ e = some Γ' → e.Valued
  | .var _ _, _ => trivial
  | .field object index t, h => by
    simp only [checkTarget, guard_bind_eq_some, asValue_eq_some] at h
    exact ⟨h.2.1, valued_of_checkExpr object h.2.2⟩
  | .binary .index array index t, h => by
    rw [checkTarget] at h
    simp only [↓guard_bind_eq_some, bind_eq_some, asValue_eq_some] at h
    obtain ⟨-, Γ₁, ⟨hvoid, harray⟩, hvoid', hindex⟩ := h
    exact ⟨⟨hvoid, valued_of_checkExpr array harray⟩, hvoid', valued_of_checkExpr index hindex⟩
  | .literal .., h | .function .., h | .unary .., h | .logic .., h | .cast .., h | .assign .., h
  | .compound .., h | .step .., h | .conditional .., h | .call .., h | .new .., h | .newArray .., h
  | .native .., h | .binary (.compare _) .., h | .binary (.numeric _) .., h
  | .binary (.shift _) .., h | .binary .concat .., h | .binary .identity .., h => by
    simp [checkTarget] at h

end

theorem hasValue_of_checkCondition {e : Expr} (h : checkCondition D Γ e = some Γ') :
    e.HasValue := by
  obtain ⟨hbool, hcheck⟩ := checkCondition_eq_some.1 h
  exact ⟨by rw [hbool]; rfl, valued_of_checkExpr e hcheck⟩

theorem valued_of_checkClauses {type : Option SourceType} {cs : List Clause}
    (h : checkClauses D type Γ cs = some Γ') : ∀ c ∈ cs, ∀ e ∈ c.value, e.HasValue := by
  induction cs generalizing Γ with
  | nil => simp
  | cons c cs ih =>
    obtain ⟨name, value⟩ := c
    cases value with
    | none =>
      rw [checkClauses] at h
      simp only [↓guard_bind_eq_some, bind_eq_some] at h
      obtain ⟨t, -, -, hrest⟩ := h
      simpa using ih hrest
    | some value =>
      rw [checkClauses] at h
      simp only [↓guard_bind_eq_some, bind_eq_some, asValue_eq_some] at h
      obtain ⟨-, Γ₁, ⟨hvoid, hvalue⟩, -, hrest⟩ := h
      simpa using ⟨⟨hvoid, valued_of_checkExpr value hvalue⟩, ih hrest⟩

theorem valued_of_checkReturn {result : Option SourceType} {value : Option Expr}
    (h : checkReturn D result Γ value = some ()) : ∀ e ∈ value, e.HasValue := by
  cases value with
  | none => simp
  | some e =>
    cases result with
    | none => simp [checkReturn] at h
    | some t =>
      rw [checkReturn] at h
      simp only [↓guard_bind_eq_some, bind_eq_some, asValue_eq_some] at h
      obtain ⟨-, Γ₁, ⟨hvoid, hcheck⟩, -⟩ := h
      simpa using ⟨hvoid, valued_of_checkExpr e hcheck⟩

theorem checkJump_tallies {kind : LoopJump} {label : Option String} {ls ls' : List Loop}
    (h : checkJump kind label Γ ls = some ls') :
    ls'.map Loop.tally = noteJump ⟨kind, label⟩ (ls.map Loop.tally) := by
  induction ls generalizing ls' with
  | nil => simp [checkJump] at h
  | cons l ls ih =>
    rw [checkJump] at h
    by_cases hl : (label.isNone || l.label = label) = true
    · rw [if_pos hl] at h
      obtain rfl := Option.some.inj h
      have hmeans : Jump.means ⟨kind, label⟩ l.tally.label = true := hl
      rw [List.map_cons, List.map_cons, noteJump, if_pos hmeans]
      cases kind <;> simp [Loop.tally, Loop.enqueue]
    · rw [if_neg hl] at h
      obtain ⟨ls₁, hls, rfl⟩ := Option.map_eq_some_iff.1 h
      have hmeans : ¬Jump.means ⟨kind, label⟩ l.tally.label = true := hl
      simp [noteJump, hmeans, ih hls]

theorem checkLoopEnd_flow {condition : Expr} {leaving repeating : List Context} {Δ : Option Context}
    (h : checkLoopEnd D Γ condition leaving repeating = some Δ) :
    Δ.isSome = (!leaving.isEmpty || (!repeating.isEmpty && !condition.isTrue)) ∧
      ((!repeating.isEmpty) = true → condition.isTrue = false → condition.HasValue) := by
  rw [checkLoopEnd] at h
  by_cases hshort : (repeating.isEmpty || condition.isTrue) = true
  · rw [if_pos hshort] at h
    obtain rfl := Option.some.inj h
    have hnot : (!repeating.isEmpty && !condition.isTrue) = false := by
      rw [← Bool.not_or, hshort, Bool.not_true]
    refine ⟨?_, fun hagain htrue => ?_⟩
    · rw [hnot, Bool.or_false, exitContext]
      cases leaving <;> rfl
    · simp [hagain, htrue] at hnot
  · rw [if_neg hshort] at h
    simp only [bind_eq_some] at h
    obtain ⟨Γ', hcond, hend⟩ := h
    obtain rfl := Option.some.inj hend
    exact ⟨by simp_all, fun _ _ => hasValue_of_checkCondition hcond⟩

structure Follows (f : Flow) (ls : List Loop) (Δ : Option Context) (ls' : List Loop) : Prop where
  past : Δ.isSome = f.past
  noted : ls'.map Loop.tally = noteJumps f.jumps (ls.map Loop.tally)

section Follows

variable {f g : Flow} {ls ls' ls'' : List Loop} {Γ : Context} {Δ Θ : Option Context}

theorem Follows.through (ls : List Loop) (Γ : Context) : Follows .through ls (some Γ) ls :=
  ⟨rfl, rfl⟩

theorem Follows.andThen (h : Follows f ls (some Γ) ls') (k : Follows g ls' Δ ls'') :
    Follows (f.andThen g) ls Δ ls'' := by
  have hpast : f.past = true := h.past.symm
  rw [Flow.andThen, if_pos hpast]
  exact ⟨k.past, by rw [k.noted, h.noted, noteJumps_append]⟩

theorem Follows.either (h : Follows f ls Δ ls') (k : Follows g ls' Θ ls'') (Γ : Context) :
    Follows (f.either g) ls (exitContext Γ (Δ.toList ++ Θ.toList)) ls'' := by
  refine ⟨?_, by rw [k.noted, h.noted]; exact (noteJumps_append ..).symm⟩
  rw [Flow.either, ← h.past, ← k.past]
  cases Δ <;> cases Θ <;> simp [exitContext]

theorem Follows.innermost {label : Option String} {l : Loop}
    (h : Follows f (⟨label, Γ, [], []⟩ :: ls) Δ (l :: ls')) :
    (!l.leaving.isEmpty) = f.leaves label ∧
      (!(l.repeating ++ Δ.toList).isEmpty) = f.repeats label ∧
      ls'.map Loop.tally = noteJumps (f.jumps.filter (!·.means label)) (ls.map Loop.tally) := by
  obtain ⟨again, hnoted, hrepeats⟩ := noteJumps_innermost f label (ls.map Loop.tally)
  have htallies := h.noted.trans hnoted
  simp only [List.map_cons, List.cons.injEq, Loop.tally, Tally.mk.injEq, Option.some.injEq,
    Prod.mk.injEq] at htallies
  obtain ⟨⟨-, hleft, hagain⟩, hrest⟩ := htallies
  refine ⟨hleft, ?_, hrest⟩
  rw [hrepeats, ← hagain, ← h.past]
  cases Δ <;> simp

end Follows

mutual

theorem checked_scope {result : Option SourceType} {ls ls' : List Loop} {Γ : Context}
    {Δ : Option Context} {D : Declared} :
    (S : Scope) → checkScope D result ls Γ S = some (Δ, ls') → Follows S.flow ls Δ ls' ∧ S.Valued
  | ⟨classes, functions, statements⟩, h => by
    rw [checkScope] at h
    simp only [↓guard_bind_eq_some, bind_eq_some] at h
    obtain ⟨-, -, _, hfunctions, hstmts⟩ := h
    obtain ⟨hfollows, hvalued⟩ := checked_stmts statements hstmts
    exact ⟨hfollows, checked_functions functions hfunctions, hvalued⟩

theorem checked_functions {D : Declared} :
    (fs : List FunctionDecl) → checkFunctions D fs = some () → functionsValued fs
  | [], _ => trivial
  | f :: fs, h => by
    rw [checkFunctions] at h
    simp only [bind_eq_some] at h
    obtain ⟨_, hf, hfs⟩ := h
    exact ⟨checked_function f hf, checked_functions fs hfs⟩

theorem checked_function {D : Declared} :
    (f : FunctionDecl) → checkFunction D f = some () → f.Valued
  | ⟨_, _, result, parameters, body⟩, h => by
    rw [checkFunction] at h
    simp only [bind_eq_some] at h
    obtain ⟨⟨Δ, ls⟩, hbody, -⟩ := h
    exact (checked_scope body hbody).2

theorem checked_stmts {result : Option SourceType} {ls ls' : List Loop} {Γ : Context}
    {Δ : Option Context} {D : Declared} :
    (ss : List Stmt) → checkStmts D result ls Γ ss = some (Δ, ls') →
      Follows (stmtsFlow ss) ls Δ ls' ∧ stmtsValued ss
  | [], h => by
    rw [checkStmts] at h
    obtain ⟨rfl, rfl⟩ := Prod.mk.inj (Option.some.inj h)
    exact ⟨.through ls Γ, trivial⟩
  | s :: rest, h => by
    rw [checkStmts] at h
    simp only [bind_eq_some] at h
    obtain ⟨⟨Γ₁, ls₁⟩, hfirst, h⟩ := h
    obtain ⟨hfollows, hvalued⟩ := checked_stmt s hfirst
    cases Γ₁ with
    | some Γ₁ =>
      obtain ⟨hrest, hvalued'⟩ := checked_stmts rest h
      exact ⟨hfollows.andThen hrest, hvalued, fun _ => hvalued'⟩
    | none =>
      obtain ⟨rfl, rfl⟩ := Prod.mk.inj (Option.some.inj h)
      have hpast : s.flow.past = false := hfollows.past.symm
      rw [stmtsFlow, Flow.andThen, hpast]
      exact ⟨hfollows, hvalued, by simp [hpast]⟩

theorem checked_stmt {result : Option SourceType} {ls ls' : List Loop} {Γ : Context}
    {Δ : Option Context} {D : Declared} :
    (S : Stmt) → checkStmt D result ls Γ S = some (Δ, ls') → Follows S.flow ls Δ ls' ∧ S.Valued
  | .scope body, h => by
    rw [checkStmt] at h
    simp only [bind_eq_some] at h
    obtain ⟨⟨Θ, ls₁⟩, hbody, hend⟩ := h
    obtain ⟨rfl, rfl⟩ := Prod.mk.inj (Option.some.inj hend)
    obtain ⟨hfollows, hvalued⟩ := checked_scope body hbody
    exact ⟨⟨by rw [Option.isSome_map]; exact hfollows.past, hfollows.noted⟩, hvalued⟩
  | .jump kind label, h => by
    rw [checkStmt] at h
    simp only [bind_eq_some] at h
    obtain ⟨ls₁, hjump, hend⟩ := h
    obtain ⟨rfl, rfl⟩ := Prod.mk.inj (Option.some.inj hend)
    exact ⟨⟨rfl, checkJump_tallies hjump⟩, trivial⟩
  | .define type clauses, h => by
    rw [checkStmt] at h
    simp only [↓guard_bind_eq_some, bind_eq_some] at h
    obtain ⟨-, Γ', hclauses, hend⟩ := h
    obtain ⟨rfl, rfl⟩ := Prod.mk.inj (Option.some.inj hend)
    exact ⟨.through ls Γ', valued_of_checkClauses hclauses⟩
  | .loop kind label condition body, h => by
    rw [checkStmt] at h
    by_cases htests : (kind = .testFirst && !condition.isTrue) = true
    · rw [if_pos htests] at h
      simp only [bind_eq_some] at h
      obtain ⟨Γ', hcond, ⟨Θ, ls₁⟩, hbody, hend⟩ := h
      obtain ⟨rfl, rfl⟩ := Prod.mk.inj (Option.some.inj hend)
      obtain ⟨hfollows, hvalued⟩ := checked_scope body hbody
      refine ⟨⟨by simp [Stmt.flow, Flow.loop, LoopKind.tests, htests], ?_⟩, hvalued,
        fun _ => hasValue_of_checkCondition hcond⟩
      obtain ⟨l, ls₂, rfl⟩ : ∃ l ls₂, ls₁ = l :: ls₂ := by
        cases ls₁ with
        | nil => simpa [noteJumps_cons] using hfollows.noted
        | cons l ls₂ => exact ⟨l, ls₂, rfl⟩
      exact hfollows.innermost.2.2
    · rw [if_neg htests] at h
      have htests' : kind.tests condition = false := by simpa [LoopKind.tests] using htests
      simp only [bind_eq_some] at h
      obtain ⟨⟨Θ, ls₁⟩, hbody, h⟩ := h
      obtain ⟨hfollows, hvalued⟩ := checked_scope body hbody
      cases ls₁ with
      | nil => simp at h
      | cons l ls₂ =>
        simp only [bind_eq_some] at h
        obtain ⟨Δ', hend, h⟩ := h
        obtain ⟨rfl, rfl⟩ := Prod.mk.inj (Option.some.inj h)
        obtain ⟨hleaves, hrepeats, hnoted⟩ := hfollows.innermost
        obtain ⟨hpast, hvalue⟩ := checkLoopEnd_flow hend
        rw [hleaves, hrepeats] at hpast
        refine ⟨⟨by rw [hpast, Stmt.flow, Flow.loop, htests', Bool.false_or], hnoted⟩, hvalued, ?_⟩
        rintro (htested | ⟨hagain, htrue⟩)
        · simp [htests'] at htested
        · exact hvalue (hrepeats.trans hagain) htrue
  | .expr value, h => by
    rw [checkStmt] at h
    simp only [bind_eq_some] at h
    obtain ⟨Γ', hvalue, hend⟩ := h
    obtain ⟨rfl, rfl⟩ := Prod.mk.inj (Option.some.inj hend)
    exact ⟨.through ls Γ', valued_of_checkExpr value hvalue⟩
  | .cond condition first second, h => by
    rw [checkStmt] at h
    simp only [bind_eq_some] at h
    obtain ⟨Γ', hcond, ⟨Γ₁, ls₁⟩, hfirst, ⟨Γ₂, ls₂⟩, hsecond, hend⟩ := h
    obtain ⟨rfl, rfl⟩ := Prod.mk.inj (Option.some.inj hend)
    obtain ⟨hfollows, hvalued⟩ := checked_arm first hfirst
    obtain ⟨hfollows', hvalued'⟩ := checked_arm second hsecond
    exact ⟨hfollows.either hfollows' Γ', hasValue_of_checkCondition hcond, hvalued, hvalued'⟩
  | .ret value, h => by
    rw [checkStmt] at h
    simp only [bind_eq_some] at h
    obtain ⟨_, hret, hend⟩ := h
    obtain ⟨rfl, rfl⟩ := Prod.mk.inj (Option.some.inj hend)
    exact ⟨⟨rfl, rfl⟩, valued_of_checkReturn hret⟩

theorem checked_arm {result : Option SourceType} {ls ls' : List Loop} {Γ : Context}
    {Δ : Option Context} {D : Declared} :
    (S : Option Scope) → checkArm D result ls Γ S = some (Δ, ls') →
      Follows (armFlow S) ls Δ ls' ∧ armValued S
  | some body, h => checked_scope body h
  | none, h => by
    rw [checkArm] at h
    obtain ⟨rfl, rfl⟩ := Prod.mk.inj (Option.some.inj h)
    exact ⟨.through ls Γ, trivial⟩

end

end Checks

end Analysis

theorem Program.Analysed.valued {p : Program} (hp : p.Analysed) : p.body.Valued := by
  obtain ⟨⟨Δ, ls⟩, hcheck⟩ := Option.isSome_iff_exists.1 hp.body
  exact (Analysis.checked_scope p.body hcheck).2

end BlockGraph
