namespace BlockGraph

/-- Keys with their values in insertion order; no key stands twice. -/
structure OrderedMap (κ α : Type) where
  entries : List (κ × α)
  nodup : (entries.map Prod.fst).Nodup
  deriving DecidableEq

namespace OrderedMap

variable {κ α β : Type}

def empty : OrderedMap κ α := ⟨[], .nil⟩

instance : EmptyCollection (OrderedMap κ α) := ⟨empty⟩

instance : Inhabited (OrderedMap κ α) := ⟨empty⟩

def keys (m : OrderedMap κ α) : List κ := m.entries.map Prod.fst

def values (m : OrderedMap κ α) : List α := m.entries.map Prod.snd

def size (m : OrderedMap κ α) : Nat := m.entries.length

def isEmpty (m : OrderedMap κ α) : Bool := m.entries.isEmpty

def withValues (m : OrderedMap κ α) (vs : List β) : OrderedMap κ β where
  entries := m.keys.zip vs
  nodup := by
    have h : ∀ (ks : List κ) (vs : List β), ((ks.zip vs).map Prod.fst).Sublist ks := by
      intro ks
      induction ks with
      | nil => simp
      | cons k ks ih =>
        intro vs
        cases vs with
        | nil => simp
        | cons v vs => simpa using ih vs
    exact (h m.keys vs).nodup m.nodup

def mapM {m : Type → Type} [Monad m] (f : α → m β) (t : OrderedMap κ α) : m (OrderedMap κ β) := do
  return t.withValues (← t.values.mapM f)

variable [DecidableEq κ]

def get? (m : OrderedMap κ α) (k : κ) : Option α := m.entries.lookup k

/-- Add a key at the end. A key that is already there keeps its value, and the new one is handed
back. -/
def insertNew (m : OrderedMap κ α) (k : κ) (a : α) : Except α (OrderedMap κ α) :=
  if h : k ∈ m.keys then .error a
  else .ok
    { entries := m.entries ++ [(k, a)]
      nodup := by
        simp only [List.map_append, List.map_cons, List.map_nil, List.nodup_append]
        refine ⟨m.nodup, by simp, ?_⟩
        intro x hx y hy hxy
        simp only [List.mem_singleton] at hy
        exact h (hy ▸ hxy ▸ hx) }

def modify (m : OrderedMap κ α) (k : κ) (f : α → α) : OrderedMap κ α where
  entries := m.entries.map fun e => if e.1 = k then (e.1, f e.2) else e
  nodup := by
    have h : (m.entries.map fun e => if e.1 = k then (e.1, f e.2) else e).map Prod.fst = m.keys := by
      rw [List.map_map]
      apply List.map_congr_left
      intro e _
      simp only [Function.comp_apply]
      split <;> rfl
    exact h ▸ m.nodup

end OrderedMap

end BlockGraph
