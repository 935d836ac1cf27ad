import BlockGraph.Graph.Locals
import BlockGraph.Proofs.OrderedMap
import Mathlib.Data.Finmap
import Mathlib.Data.List.Induction

namespace BlockGraph

namespace OrderedMap

variable {κ α : Type}

inductive Edit (κ α : Type) where
  | insert (key : κ) (value : α)
  | update (key : κ) (change : α → α)

def insertions (h : List (Edit κ α)) : List κ :=
  h.filterMap fun
    | .insert k _ => some k
    | .update _ _ => none

def Edit.revise [DecidableEq κ] (k : κ) (a : α) : Edit κ α → α
  | .insert _ _ => a
  | .update j f => if k = j then f a else a

@[simp]
theorem insertions_concat_insert (h : List (Edit κ α)) (k : κ) (a : α) :
    insertions (h ++ [.insert k a]) = insertions h ++ [k] := by
  simp [insertions]

@[simp]
theorem insertions_concat_update (h : List (Edit κ α)) (k : κ) (f : α → α) :
    insertions (h ++ [.update k f]) = insertions h := by
  simp [insertions]

/-- A way to keep a map: what can be done with it, and what can be seen of it. -/
structure Keeping (κ α M : Type) where
  empty : M
  insertNew : M → κ → α → Except α M
  modify : M → κ → (α → α) → M
  get? : M → κ → Option α
  size : M → Nat
  entries : M → List (κ × α)

namespace Keeping

variable {M : Type} (K : Keeping κ α M)

def edit (m : M) : Edit κ α → M
  | .insert k a =>
    match K.insertNew m k a with
    | .ok m' => m'
    | .error _ => m
  | .update k f => K.modify m k f

theorem edit_of_ok {m m' : M} {k : κ} {a : α} (h : K.insertNew m k a = .ok m') :
    K.edit m (.insert k a) = m' := by
  simp [edit, h]

theorem edit_of_error {m : M} {k : κ} {a b : α} (h : K.insertNew m k a = .error b) :
    K.edit m (.insert k a) = m := by
  simp [edit, h]

def run (h : List (Edit κ α)) : M := h.foldl K.edit K.empty

theorem run_append (h h' : List (Edit κ α)) : K.run (h ++ h') = h'.foldl K.edit (K.run h) :=
  List.foldl_append

theorem run_concat (h : List (Edit κ α)) (e : Edit κ α) : K.run (h ++ [e]) = K.edit (K.run h) e :=
  K.run_append h [e]

/-- Whatever was asked of the map, it shows just that. -/
structure Faithful [DecidableEq κ] : Prop where
  keys (h : List (Edit κ α)) : (K.entries (K.run h)).map Prod.fst = (insertions h).eraseDups
  latest (before after : List (Edit κ α)) (k : κ) (a : α) (hnew : k ∉ insertions before) :
    (k, after.foldl (Edit.revise k) a) ∈ K.entries (K.run (before ++ .insert k a :: after))
  size (h : List (Edit κ α)) : K.size (K.run h) = (K.entries (K.run h)).length
  get? (h : List (Edit κ α)) (k : κ) (a : α) :
    K.get? (K.run h) k = some a ↔ (k, a) ∈ K.entries (K.run h)
  insert_new (h : List (Edit κ α)) (k : κ) (a : α) (hk : k ∉ insertions h) :
    K.insertNew (K.run h) k a = .ok (K.run (h ++ [.insert k a]))
  insert_known (h : List (Edit κ α)) (k : κ) (a : α) (hk : k ∈ insertions h) :
    K.insertNew (K.run h) k a = .error a ∧ K.run (h ++ [.insert k a]) = K.run h
  eq_iff (h h' : List (Edit κ α)) :
    K.run h = K.run h' ↔ K.entries (K.run h) = K.entries (K.run h')

end Keeping

variable [DecidableEq κ]

def keeping (κ α : Type) [DecidableEq κ] : Keeping κ α (OrderedMap κ α) where
  empty := ∅
  insertNew := insertNew
  modify := modify
  get? := get?
  size := size
  entries := entries

/-! The list of entries. -/

theorem edit_insert_of_mem {m : OrderedMap κ α} {k : κ} (hk : k ∈ m.keys) (a : α) :
    (keeping κ α).edit m (.insert k a) = m :=
  (keeping κ α).edit_of_error (insertNew_of_mem hk)

theorem edit_insert_of_notMem {m : OrderedMap κ α} {k : κ} (hk : k ∉ m.keys) (a : α) :
    m.insertNew k a = .ok ((keeping κ α).edit m (.insert k a)) ∧
      ((keeping κ α).edit m (.insert k a)).entries = m.entries ++ [(k, a)] := by
  obtain ⟨m', hm', he⟩ := insertNew_of_notMem (a := a) hk
  rw [(keeping κ α).edit_of_ok hm']
  exact ⟨hm', he⟩

theorem keys_edit_insert (m : OrderedMap κ α) (k : κ) (a : α) :
    ((keeping κ α).edit m (.insert k a)).keys = if k ∈ m.keys then m.keys else m.keys ++ [k] := by
  split
  case isTrue hk => rw [edit_insert_of_mem hk]
  case isFalse hk => simp [keys, (edit_insert_of_notMem hk a).2]

theorem keys_run (h : List (Edit κ α)) : ((keeping κ α).run h).keys = (insertions h).eraseDups := by
  induction h using List.reverseRecOn with
  | nil => rfl
  | append_singleton h e ih =>
    rw [Keeping.run_concat]
    cases e with
    | insert k a =>
      -- Of a repeated key the first place counts, so at the end only a new one makes a difference.
      rw [keys_edit_insert, ih, insertions_concat_insert, List.eraseDups_append]
      by_cases hk : k ∈ insertions h <;>
        simp [List.mem_eraseDups, List.removeAll, List.eraseDups_cons, hk]
    | update k f =>
      rw [insertions_concat_update, ← ih]
      exact keys_modify _ k f

theorem mem_keys_run {h : List (Edit κ α)} {k : κ} :
    k ∈ ((keeping κ α).run h).keys ↔ k ∈ insertions h := by
  rw [keys_run, List.mem_eraseDups]

theorem get?_edit {m : OrderedMap κ α} {k : κ} {a : α} (hk : m.get? k = some a) (e : Edit κ α) :
    ((keeping κ α).edit m e).get? k = some (e.revise k a) := by
  cases e with
  | insert j b =>
    by_cases hj : j ∈ m.keys
    · rw [edit_insert_of_mem hj]
      exact hk
    · have hne : k ≠ j := by
        rintro rfl
        exact hj (List.mem_map_of_mem (mem_of_get? hk))
      rw [get?_of_entries (edit_insert_of_notMem hj b).2 hj, if_neg hne]
      exact hk
  | update j f =>
    change (m.modify j f).get? k = _
    rw [get?_modify, hk]
    rfl

theorem get?_foldl_edit {m : OrderedMap κ α} {k : κ} {a : α} (hk : m.get? k = some a)
    (after : List (Edit κ α)) :
    (after.foldl (keeping κ α).edit m).get? k = some (after.foldl (Edit.revise k) a) := by
  induction after generalizing m a with
  | nil => exact hk
  | cons e after ih => exact ih (get?_edit hk e)

theorem get?_run (before after : List (Edit κ α)) {k : κ} (a : α) (hnew : k ∉ insertions before) :
    ((keeping κ α).run (before ++ .insert k a :: after)).get? k =
      some (after.foldl (Edit.revise k) a) := by
  have hk : k ∉ ((keeping κ α).run before).keys := fun h => hnew (mem_keys_run.1 h)
  rw [Keeping.run_append, List.foldl_cons]
  apply get?_foldl_edit
  rw [get?_of_entries (edit_insert_of_notMem hk a).2 hk, if_pos rfl]

theorem keeping_faithful : (keeping κ α).Faithful where
  keys := keys_run
  latest before after k a hnew := mem_of_get? (get?_run before after a hnew)
  size _ := rfl
  get? _ _ _ := get?_eq_some_iff
  insert_new h k a hk := by
    rw [Keeping.run_concat]
    exact (edit_insert_of_notMem (fun hmem => hk (mem_keys_run.1 hmem)) a).1
  insert_known h k a hk := by
    have hmem := mem_keys_run.2 hk
    rw [Keeping.run_concat]
    exact ⟨insertNew_of_mem hmem, edit_insert_of_mem hmem a⟩
  eq_iff _ _ := ⟨congrArg entries, eq_of_entries⟩

example : ((keeping String Nat).run [.insert "zeta" 0, .insert "alpha" 1, .update "mu" (· + 1),
    .insert "zeta" 7, .update "alpha" (· + 4), .insert "mu" 2]).entries =
      [("zeta", 0), ("alpha", 5), ("mu", 2)] := by
  decide

/-! The keys beside the contents. -/

structure Split (κ α : Type) where
  order : List κ
  contents : Finmap fun _ : κ => α

namespace Split

def insertNew (s : Split κ α) (k : κ) (a : α) : Except α (Split κ α) :=
  if k ∈ s.contents then .error a else .ok ⟨s.order ++ [k], s.contents.insert k a⟩

def modify (s : Split κ α) (k : κ) (f : α → α) : Split κ α :=
  match s.contents.lookup k with
  | some a => { s with contents := s.contents.insert k (f a) }
  | none => s

def walk (contents : Finmap fun _ : κ => α) : List κ → List (κ × α)
  | [] => []
  | k :: ks =>
    match contents.lookup k with
    | some a => (k, a) :: walk contents ks
    | none => []

def keeping (κ α : Type) [DecidableEq κ] : Keeping κ α (Split κ α) where
  empty := ⟨[], ∅⟩
  insertNew := insertNew
  modify := modify
  get? s k := s.contents.lookup k
  size s := s.order.length
  entries s := walk s.contents s.order

structure InStep (s : Split κ α) (m : OrderedMap κ α) : Prop where
  order : s.order = m.keys
  contents (k : κ) : s.contents.lookup k = m.get? k

variable {s s' : Split κ α} {m : OrderedMap κ α}

theorem insertNew_of_mem {k : κ} {a : α} (h : k ∈ s.contents) : s.insertNew k a = .error a :=
  if_pos h

theorem insertNew_of_notMem {k : κ} {a : α} (h : k ∉ s.contents) :
    s.insertNew k a = .ok ⟨s.order ++ [k], s.contents.insert k a⟩ :=
  if_neg h

theorem order_modify (s : Split κ α) (k : κ) (f : α → α) : (s.modify k f).order = s.order := by
  unfold modify
  split <;> rfl

theorem lookup_modify (s : Split κ α) (k j : κ) (f : α → α) :
    (s.modify k f).contents.lookup j =
      (s.contents.lookup j).map fun a => if j = k then f a else a := by
  by_cases hj : j = k
  · subst hj
    cases ha : s.contents.lookup j <;> simp [modify, ha]
  · cases ha : s.contents.lookup k <;> simp [modify, ha, hj, Finmap.lookup_insert_of_ne]

theorem InStep.mem_iff (h : s.InStep m) {k : κ} : k ∈ s.contents ↔ k ∈ m.keys := by
  rw [← not_iff_not, ← Finmap.lookup_eq_none, h.contents, get?_eq_none_iff]

theorem InStep.unique (h : s.InStep m) (h' : s'.InStep m) : s = s' := by
  have horder : s.order = s'.order := h.order.trans h'.order.symm
  have hcontents : s.contents = s'.contents := by
    apply Finmap.ext_lookup
    intro k
    rw [h.contents, h'.contents]
  cases s
  cases s'
  simp_all

theorem walk_keys {contents : Finmap fun _ : κ => α} {es : List (κ × α)}
    (h : ∀ e ∈ es, contents.lookup e.1 = some e.2) : walk contents (es.map Prod.fst) = es := by
  induction es with
  | nil => rfl
  | cons e es ih =>
    rw [List.forall_mem_cons] at h
    simp [walk, h.1, ih h.2]

theorem InStep.entries (h : s.InStep m) : walk s.contents s.order = m.entries := by
  rw [h.order]
  apply walk_keys
  rintro ⟨k, a⟩ he
  rw [h.contents]
  exact get?_of_mem he

theorem InStep.insert (h : s.InStep m) {k : κ} (hk : k ∉ m.keys) (a : α) :
    InStep ⟨s.order ++ [k], s.contents.insert k a⟩
      ((OrderedMap.keeping κ α).edit m (.insert k a)) := by
  have hentries := (edit_insert_of_notMem hk a).2
  constructor
  · simp [OrderedMap.keys, hentries, h.order]
  · intro j
    rw [get?_of_entries hentries hk]
    by_cases hj : j = k
    · subst hj
      simp
    · simp [hj, Finmap.lookup_insert_of_ne, h.contents]

theorem InStep.modify (h : s.InStep m) (k : κ) (f : α → α) : (s.modify k f).InStep (m.modify k f) := by
  constructor
  · rw [order_modify, h.order, keys_modify]
  · intro j
    rw [lookup_modify, get?_modify, h.contents]

theorem InStep.edit (h : s.InStep m) (e : Edit κ α) :
    InStep ((keeping κ α).edit s e) ((OrderedMap.keeping κ α).edit m e) := by
  cases e with
  | insert k a =>
    by_cases hk : k ∈ m.keys
    · rw [(keeping κ α).edit_of_error (insertNew_of_mem (h.mem_iff.2 hk)), edit_insert_of_mem hk]
      exact h
    · rw [(keeping κ α).edit_of_ok (insertNew_of_notMem (mt h.mem_iff.1 hk))]
      exact h.insert hk a
  | update k f => exact h.modify k f

theorem inStep_run (h : List (Edit κ α)) :
    InStep ((keeping κ α).run h) ((OrderedMap.keeping κ α).run h) := by
  induction h using List.reverseRecOn with
  | nil => exact ⟨rfl, fun _ => rfl⟩
  | append_singleton h e ih =>
    rw [Keeping.run_concat, Keeping.run_concat]
    exact ih.edit e

theorem entries_run (h : List (Edit κ α)) :
    (keeping κ α).entries ((keeping κ α).run h) = ((OrderedMap.keeping κ α).run h).entries :=
  (inStep_run h).entries

theorem mem_contents_run {h : List (Edit κ α)} {k : κ} :
    k ∈ ((keeping κ α).run h).contents ↔ k ∈ insertions h :=
  (inStep_run h).mem_iff.trans mem_keys_run

theorem keeping_faithful : (keeping κ α).Faithful where
  keys h := by
    rw [entries_run]
    exact keys_run h
  latest before after k a hnew := by
    rw [entries_run]
    exact mem_of_get? (get?_run before after a hnew)
  size h := by
    rw [entries_run]
    change ((keeping κ α).run h).order.length = _
    rw [(inStep_run h).order, OrderedMap.keys, List.length_map]
  get? h k a := by
    rw [entries_run, ← get?_eq_some_iff, ← (inStep_run h).contents]
    rfl
  insert_new h k a hk := by
    have hok := insertNew_of_notMem (a := a) (mt mem_contents_run.1 hk)
    rw [Keeping.run_concat, (keeping κ α).edit_of_ok hok]
    exact hok
  insert_known h k a hk := by
    have herror := insertNew_of_mem (a := a) (mem_contents_run.2 hk)
    rw [Keeping.run_concat, (keeping κ α).edit_of_error herror]
    exact ⟨herror, rfl⟩
  eq_iff h h' := by
    refine ⟨congrArg _, ?_⟩
    intro he
    rw [entries_run, entries_run] at he
    exact (inStep_run h).unique (eq_of_entries he ▸ inStep_run h')

end Split

end OrderedMap

theorem SymbolTable.rebind_of_mem {t : SymbolTable} {name : String} (h : name ∈ t.keys)
    (r : Register) :
    ∃ t', t.rebind name r = .ok t' ∧ t'.keys = t.keys ∧ ∀ other, t'.get? other =
      (t.get? other).map fun x => if other = name then { x with register := some r } else x := by
  cases hx : t.get? name with
  | none => exact absurd h (OrderedMap.get?_eq_none_iff.1 hx)
  | some x =>
    refine ⟨t.modify name fun x => { x with register := some r }, ?_, ?_, ?_⟩
    · simp [rebind, hx]
    · exact OrderedMap.keys_modify t name _
    · exact fun other => OrderedMap.get?_modify t name other _

/-- Both ways to keep a map are faithful to its history and show the same. A variable that gets another
register keeps its place. -/
theorem OrderedMap.keeps_insertionOrder (κ α : Type) [DecidableEq κ] :
    (keeping κ α).Faithful ∧ (Split.keeping κ α).Faithful ∧
    (∀ h, (Split.keeping κ α).entries ((Split.keeping κ α).run h) = ((keeping κ α).run h).entries) ∧
    ∀ (t : SymbolTable) (name : String) (r : Register),
      (name ∈ t.keys → ∃ t', t.rebind name r = .ok t' ∧ t'.keys = t.keys ∧ ∀ other, t'.get? other =
        (t.get? other).map fun x => if other = name then { x with register := some r } else x) ∧
      (name ∉ t.keys → t.rebind name r = .error (.unknownSymbol name)) := by
  refine ⟨keeping_faithful, Split.keeping_faithful, Split.entries_run, ?_⟩
  intro t name r
  refine ⟨fun h => SymbolTable.rebind_of_mem h r, ?_⟩
  intro h
  rw [SymbolTable.rebind, get?_eq_none_iff.2 h]

end BlockGraph
