import BlockGraph.Proofs.Course.Plans
import BlockGraph.Proofs.Lowering.Zones
import BlockGraph.Proofs.Sessions.Joins
import Mathlib.Logic.Function.Basic

/-!
Which variables have a value at the start of a block is decided when the block is made, before all the
jumps to it are there. The question has an answer in the finished graph too: a variable has a value if
every path to the block gives it one. This module says what both answers are; to compare them, the
making of a graph is written down with the variables of every block and the places where they were
declared.
-/

namespace BlockGraph

def SymbolTable.holds (t : SymbolTable) (name : String) : Bool := (t.register? name).isSome

namespace Block

def jumps (B : Block) : List BlockId :=
  (B.terminator.toList.flatMap (·.edges)).filterMap fun e => B.staticTarget? e.target

def continuations (B : Block) : List BlockId :=
  B.instructions.filterMap fun i =>
    match i.operation with
    | .setField _ 0 r => B.staticTarget? r
    | _ => none

def successors (B : Block) : List BlockId := B.jumps ++ B.continuations

end Block

namespace Graph

def symbols (g : Graph) (b : BlockId) : SymbolTable := (g.block? b).elim ∅ (·.locals.symbols)

/-- Control goes on from `b` to `c`. The entries of functions are left out, since only calls get
there. -/
def Flows (g : Graph) (entries : List BlockId) (b c : BlockId) : Prop :=
  c ∉ entries ∧ ∃ B, g.block? b = some B ∧ c ∈ B.successors

inductive Path (g : Graph) (entries : List BlockId) (b : BlockId) : BlockId → List BlockId → Prop
  | here : Path g entries b b []
  | step {c d : BlockId} {xs : List BlockId} (h : Path g entries b c xs) (hflow : g.Flows entries c d) :
      Path g entries b d (c :: xs)

end Graph

structure Binding where
  name : String
  home : BlockId
  deriving DecidableEq

/-- What is known about the blocks of a graph besides their code: the variables that a block started with,
and which of the blocks before it declares each of them, the variables that it declares itself, and those
of them that got their value with that. The entries of the program and of its functions are roots: they
start without variables. -/
structure Origins where
  start : BlockId → SymbolTable := fun _ => ∅
  outer : BlockId → List Binding := fun _ => []
  declared : BlockId → List String := fun _ => []
  given : BlockId → List String := fun _ => []
  roots : List BlockId := []

namespace Origins

variable (O : Origins)

def scope (b : BlockId) : List Binding := O.outer b ++ (O.declared b).map (⟨·, b⟩)

def begin (b : BlockId) (t : SymbolTable) (vs : List Binding) : Origins where
  start := Function.update O.start b t
  outer := Function.update O.outer b vs
  declared := Function.update O.declared b []
  given := Function.update O.given b []
  roots := O.roots

def root (b : BlockId) : Origins := { O.begin b ∅ [] with roots := O.roots ++ [b] }

def withDeclared (b : BlockId) (ds : List String) : Origins :=
  { O with declared := Function.update O.declared b ds }

def declare (b : BlockId) (name : String) (x : Symbol) : Origins :=
  { O.withDeclared b (O.declared b ++ [name]) with
    given := if x.register.isSome then Function.update O.given b (O.given b ++ [name]) else O.given }

/-- The block gives the variable a value: it has one in the end, but not where the block starts or,
if the block declares it itself, where it is declared. -/
def Gives (g : Graph) (b : BlockId) (v : Binding) : Prop :=
  v ∈ O.scope b ∧ g.HasValue b v.name ∧ (O.start b).holds v.name = false

def Assigned (g : Graph) (entries : List BlockId) (v : Binding) (c : BlockId) : Prop :=
  ∀ xs, g.Path entries v.home c xs → ∃ x ∈ xs, O.Gives g x v

structure Exact (g : Graph) (entries : List BlockId) : Prop where
  names : ∀ b B, g.block? b = some B → (O.start b).keys = (O.outer b).map (·.name)
  holds_iff : ∀ b B v, g.block? b = some B → v ∈ O.outer b →
    ((O.start b).holds v.name = true ↔ O.Assigned g entries v b)

end Origins

namespace Lowering

open Builder

structure Amends (roots : List BlockId) (b : BlockId) (s s' : Builder) : Prop where
  block : ∃ B B', s.graph.block? b = some B ∧ B.isTerminated = false ∧ s'.graph.block? b = some B' ∧
    B.Extends B' ∧ B'.locals.symbols.keys = B.locals.symbols.keys ∧
    (∀ n, B.locals.holds n = true → B'.locals.holds n = true) ∧
    ∀ c ∈ B'.referenced, c ∈ B.referenced ∨ c ∈ roots
  others : ∀ c, c ≠ b → s'.graph.block? c = s.graph.block? c

/-- How a graph came about, and where its variables come from. A new block gets the variables of the
block that it continues, or of a context that all blocks before it have the variables of. A jump to a
block that is there already comes from a block that has its variables. To enter or leave a scope is to
converge from one block, and a branch is one that shares no side. -/
inductive Chronicle : Origins → Builder → Prop
  | empty : Chronicle {} {}
  | root {O : Origins} {s s' : Builder} {ps : List Parameter} {b : BlockId} (h : Chronicle O s)
      (hrun : Runs (addBlock ps) s b s') : Chronicle (O.root b) s'
  | quiet {O : Origins} {s s' : Builder} (h : Chronicle O s)
      (hblocks : s'.graph.blocks = s.graph.blocks) : Chronicle O s'
  | amend {O : Origins} {s s' : Builder} {b : BlockId} (h : Chronicle O s)
      (hb : Amends O.roots b s s') : Chronicle O s'
  | declare {O : Origins} {s s' : Builder} {b : BlockId} {name : String} {x : Symbol}
      (h : Chronicle O s) (hb : s.graph.IsOpen b) (hrun : Runs (define b name x) s () s') :
      Chronicle (O.declare b name x) s'
  | call {O : Origins} {s s' : State} {b c : BlockId} {n : Nat} {t : SourceType}
      (h : Chronicle O s.toBuilder) (hrun : Runs (lowerCall b n t) s c s') :
      Chronicle (O.begin c (s'.graph.symbols c) (O.scope b)) s'.toBuilder
  | converge {O : Origins} {s s' : Builder} {context c : BlockId} {preds : List BlockId}
      (h : Chronicle O s) (hscope : ∀ p ∈ preds, O.scope context ⊆ O.scope p)
      (hrun : Runs (converge context preds) s c s') :
      Chronicle (O.begin c (s'.graph.symbols c) (O.scope context)) s'
  | convergeBranch {O : Origins} {s s' : Builder} {context b c d : BlockId} {preds : List BlockId}
      {r : Register} (h : Chronicle O s)
      (hscope : ∀ p ∈ b :: preds, O.scope context ⊆ O.scope p)
      (hrun : Runs (convergeBranch context preds b r) s (c, d) s') :
      Chronicle ((O.begin c (s'.graph.symbols c) (O.scope context)).begin d (s'.graph.symbols d)
        (O.scope context)) s'
  | jump {O : Origins} {s s' : Builder} {b c : BlockId} (h : Chronicle O s)
      (hscope : O.outer c ⊆ O.scope b) (hrun : Runs (jump b c) s () s') : Chronicle O s'

end Lowering

namespace Program

open Lowering

abbrev ComesTo (p : Program) {α : Type} (c : Plan α) (s : State) : Prop :=
  Visits (.call (.program p)) {} c s

def Makes (p : Program) (b : BlockId) (t : SymbolTable) : Prop :=
  ∃ (α : Type) (x : LowerM α) (s : State) (a : α) (s' : State), p.ComesTo (.act x) s ∧ Runs x s a s' ∧
    s.graph.block? b = none ∧ s'.graph.block? b ≠ none ∧ s'.graph.symbols b = t

namespace ComesTo

variable {p : Program} {α β : Type} {c : Plan α} {f : α → Plan β} {s s' : State}

theorem enter {x : Lowering.Task α} (h : p.ComesTo (.call x) s) : p.ComesTo x.plan s :=
  Visits.trans h (.enter .refl)

theorem first (h : p.ComesTo (c >>= f) s) : p.ComesTo c s := Visits.trans h (.first .refl)

theorem after {a : α} (h : p.ComesTo (c >>= f) s) (hc : Runs c.run s a s') : p.ComesTo (f a) s' :=
  Visits.trans h (.after hc .refl)

end ComesTo

end Program

end BlockGraph
