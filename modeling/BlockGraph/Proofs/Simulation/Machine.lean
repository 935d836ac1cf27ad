import BlockGraph.Proofs.Execution
import BlockGraph.Proofs.Lowering.Types
import BlockGraph.Proofs.Source.Evaluation

namespace BlockGraph

def ValueType.kind : ValueType → Kind
  | .prim p => .prim p
  | .object _ => .object
  | .array element => .array element.kind
  | .blockRef _ => .function

theorem ValueType.isVoid_eq (v : ValueType) : v.isVoid = decide (v.kind = .prim .void) := by
  cases v with
  | prim p => cases p <;> rfl
  | _ => rfl

theorem SourceType.isVoid_eq (t : SourceType) : t.isVoid = decide (t.kind = .prim .void) := by
  cases t with
  | prim p => cases p <;> rfl
  | _ => rfl

namespace Lowered

variable (L : Lowered)

def entry? (f : FunctionId) : Option BlockId := (L.functions.find? (·.1 = f)).map (·.2.entry)

def function? (b : BlockId) : Option FunctionId :=
  (L.functions.find? fun f => L.entry? f.1 = some b).map (·.1)

theorem entry?_of_function? {L : Lowered} {b : BlockId} {f : FunctionId}
    (h : L.function? b = some f) : L.entry? f = some b := by
  obtain ⟨e, he, rfl⟩ := Option.map_eq_some_iff.1 h
  simpa using List.find?_some he

def class? (l : LayoutId) : Option ClassId := (L.classes.find? (·.2 = l)).map (·.1)

end Lowered

inductive Word (I : Interpretation) where
  | plain (v : I.Value)
  | block (b : BlockId)
  | context (n : Nat)
  | nothing

def Word.plain? {I : Interpretation} : Word I → Option I.Value
  | .plain v => some v
  | _ => none

theorem Word.mapM_plain? {I : Interpretation} (vs : List I.Value) :
    (vs.map Word.plain).mapM Word.plain? = some vs := by
  induction vs with
  | nil => rfl
  | cons v vs ih => simp [List.mapM_cons, plain?, ih]

abbrev Contexts (I : Interpretation) := List (Nat → Option (Word I))

structure Memory (I : Interpretation) where
  own : I.State
  contexts : Contexts I

namespace Memory

variable {I : Interpretation} (m : Memory I)

def yield (r : Option (I.Value × I.State)) : Option (Word I × Memory I) :=
  r.map fun (v, σ) => (.plain v, { m with own := σ })

def change (r : Option I.State) : Option (Word I × Memory I) :=
  r.map fun σ => (.nothing, { m with own := σ })

def field? (c n : Nat) : Option (Word I) := m.contexts[c]?.bind (· n)

def setField (c n : Nat) (w : Word I) : Memory I :=
  { m with contexts := m.contexts.modify c fun f => Function.update f n (some w) }

end Memory

namespace Interpretation

variable (I : Interpretation) (L : Lowered)

def reference (b : BlockId) : Word I :=
  match L.function? b with
  | some f => .plain (I.function f)
  | none => .block b

def execute (op : Operation) (k : Kind) (ws : List (Word I)) (m : Memory I) :
    Option (Word I × Memory I) :=
  match op, ws with
  | .literal v, [] => some (.plain (I.literal v), m)
  | .blockRef b, [] => some (I.reference L b, m)
  | .unary op _, [.plain v] => m.yield (I.unary op k v m.own)
  | .compare op _ _, [.plain v, .plain w] => m.yield (I.binary (.compare op) k v w m.own)
  | .numeric op _ _, [.plain v, .plain w] => m.yield (I.binary (.numeric op) k v w m.own)
  | .shift op _ _, [.plain v, .plain w] => m.yield (I.binary (.shift op) k v w m.own)
  | .concat _ _, [.plain v, .plain w] => m.yield (I.binary .concat k v w m.own)
  | .identity _ _, [.plain v, .plain w] => m.yield (I.binary .identity k v w m.own)
  | .getIndex _ _, [.plain v, .plain w] => m.yield (I.binary .index k v w m.own)
  | .setIndex _ _ _, [.plain v, .plain w, .plain x] => m.change (I.setElement v w x m.own)
  | .getField _ n, [.plain v] => m.yield (I.getField n k v m.own)
  | .getField _ n, [.context c] => (m.field? c n).map (·, m)
  | .setField _ n _, [.plain v, .plain w] => m.change (I.setField n v w m.own)
  | .setField _ n _, [.context c, w] => some (.nothing, m.setField c n w)
  | .cast op _, [.plain v] => m.yield (I.cast op k v m.own)
  | .cast _ _, [.context c] => some (.context c, m)
  | .new l, [] =>
    match L.class? l with
    | some c => m.yield (I.new c m.own)
    | none =>
      some (.context m.contexts.length, { m with contexts := m.contexts ++ [fun _ => none] })
  | .newArray _, [.plain v] => m.yield (I.newArray k v m.own)
  | .native name _, ws =>
    (ws.mapM Word.plain?).bind fun vs => m.yield (I.native name k vs m.own)
  | _, _ => none

section Execute

variable {I L} {k : Kind} {m : Memory I} {r r' : Register} {n c : Nat} {l : LayoutId}

theorem execute_getField_context :
    I.execute L (Operation.getField r n).form k [.context c] m = (m.field? c n).map (·, m) := rfl

theorem execute_setField_context {w : Word I} :
    I.execute L (Operation.setField r n r').form k [.context c, w] m =
      some (.nothing, m.setField c n w) := rfl

theorem execute_new_context (h : L.class? l = none) :
    I.execute L (Operation.new l).form k [] m =
      some (.context m.contexts.length, { m with contexts := m.contexts ++ [fun _ => none] }) := by
  change (match L.class? l with | some c => _ | none => _) = _
  rw [h]

theorem execute_new {d : ClassId} (h : L.class? l = some d) :
    I.execute L (Operation.new l).form k [] m = m.yield (I.new d m.own) := by
  change (match L.class? l with | some c => _ | none => _) = _
  rw [h]

theorem execute_native {name : String} {rs : List Register} {vs : List I.Value} :
    I.execute L (Operation.native name rs).form k (vs.map .plain) m =
      m.yield (I.native name k vs m.own) := by
  change ((vs.map Word.plain).mapM Word.plain?).bind _ = _
  rw [Word.mapM_plain?]
  rfl

end Execute

/-- The machine for a lowered program. -/
@[reducible] def machine : Machine where
  Value := Word I
  State := Memory I
  perform op t := I.execute L op t.kind
  truth
    | .plain v => I.truth v
    | _ => none
  target
    | .plain v => (I.callee v).bind L.entry?
    | .block b => some b
    | _ => none

theorem target_reference (b : BlockId) : (I.machine L).target (I.reference L b) = some b := by
  unfold reference
  split
  case h_1 f hf => simp [I.callee_function, Lowered.entry?_of_function? hf]
  case h_2 => rfl

end Interpretation

namespace Lowering

theorem kind_of_lowered? {s : State} (t : SourceType) {v : ValueType} (h : lowered? s t = some v) :
    v.kind = t.kind := by
  cases t with
  | prim p =>
    obtain rfl := Option.some.inj h
    rfl
  | object c =>
    obtain ⟨l, -, rfl⟩ := Option.map_eq_some_iff.1 h
    rfl
  | array element =>
    obtain ⟨u, hu, rfl⟩ := lowered?_array.1 h
    rw [ValueType.kind, SourceType.kind, kind_of_lowered? element hu]
  | function result parameters =>
    simp only [lowered?, Option.bind_eq_some_iff, Option.map_eq_some_iff] at h
    obtain ⟨-, -, -, -, -, -, rfl⟩ := h
    rfl

theorem kind_of_runs {s s' : State} {t : SourceType} {v : ValueType}
    (h : Runs (lowerType t) s v s') : v.kind = t.kind :=
  kind_of_lowered? t (lowered?_of_runs t v h)

theorem isVoid_eq_of_runs {s s' : State} {t : SourceType} {v : ValueType}
    (h : Runs (lowerType t) s v s') : v.isVoid = t.isVoid := by
  rw [v.isVoid_eq, t.isVoid_eq, kind_of_runs h]

structure Links (L : Lowered) (s : State) : Prop where
  graph : s.graph.Extends L.graph
  entry : ∀ (k : Nat) e, s.functions[k]? = some e → L.entry? ⟨k⟩ = some e.entry
  function : ∀ (k : Nat) e, s.functions[k]? = some e → L.function? e.entry = some ⟨k⟩
  class_ : ∀ (k : Nat) l, s.classes[k]? = some l → L.class? l = some ⟨k⟩
  noClass : ∀ l T, s.graph.layout? l = some T → (∀ name, T.origin ≠ .ofClass name) →
    L.class? l = none

theorem Links.back {L : Lowered} {s s' : State} (h : Links L s') (hs : Grows s s') : Links L s where
  graph := hs.graph.trans h.graph
  entry k e he := h.entry k e (hs.functions k e he)
  function k e he := h.function k e (hs.functions k e he)
  class_ k l hl := h.class_ k l (hs.classes k l hl)
  noClass l T hT horigin := h.noClass l T (hs.layouts l T hT) horigin

end Lowering

end BlockGraph
