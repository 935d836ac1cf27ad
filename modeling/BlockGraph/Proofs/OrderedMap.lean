import BlockGraph.OrderedMap

namespace BlockGraph

namespace OrderedMap

variable {κ α : Type}

theorem eq_of_entries {m m' : OrderedMap κ α} (h : m.entries = m'.entries) : m = m' := by
  obtain ⟨entries, _⟩ := m
  obtain ⟨entries', _⟩ := m'
  simpa using h

variable [DecidableEq κ] {m : OrderedMap κ α} {k : κ} {a : α}

theorem mem_of_get? (h : m.get? k = some a) : (k, a) ∈ m.entries := by
  obtain ⟨before, after, he, -⟩ := List.lookup_eq_some_iff.1 h
  simp [he]

theorem get?_of_mem (h : (k, a) ∈ m.entries) : m.get? k = some a := by
  obtain ⟨entries, hnodup⟩ := m
  simp only [get?] at h ⊢
  induction entries with
  | nil => simp at h
  | cons e entries ih =>
    obtain ⟨j, c⟩ := e
    simp only [List.map_cons, List.nodup_cons] at hnodup
    rcases List.mem_cons.1 h with heq | hmem
    · obtain ⟨rfl, rfl⟩ := Prod.mk.inj heq
      simp
    · have hne : k ≠ j := by
        rintro rfl
        exact hnodup.1 (List.mem_map.2 ⟨_, hmem, rfl⟩)
      rw [List.lookup_cons, beq_eq_false_iff_ne.2 hne]
      exact ih hnodup.2 hmem

theorem get?_eq_some_iff : m.get? k = some a ↔ (k, a) ∈ m.entries :=
  ⟨mem_of_get?, get?_of_mem⟩

theorem get?_eq_none_iff : m.get? k = none ↔ k ∉ m.keys := by
  rw [get?, List.lookup_eq_none_iff, keys, List.mem_map]
  constructor
  · rintro h ⟨e, he, rfl⟩
    simpa using h e he
  · intro h e he
    simpa using fun hk => h ⟨e, he, hk.symm⟩

theorem insertNew_of_mem (h : k ∈ m.keys) : m.insertNew k a = .error a := by
  simp [insertNew, h]

theorem insertNew_of_notMem (h : k ∉ m.keys) :
    ∃ m', m.insertNew k a = .ok m' ∧ m'.entries = m.entries ++ [(k, a)] := by
  simp [insertNew, h]

theorem get?_of_entries {m' : OrderedMap κ α} (h : m'.entries = m.entries ++ [(k, a)])
    (hk : k ∉ m.keys) (j : κ) : m'.get? j = if j = k then some a else m.get? j := by
  rw [get?, h, List.lookup_append]
  by_cases hj : j = k
  · subst hj
    have hnone : m.entries.lookup j = none := get?_eq_none_iff.2 hk
    simp [hnone]
  · have hb : (j == k) = false := beq_eq_false_iff_ne.2 hj
    cases hl : m.entries.lookup j <;> simp [List.lookup_cons, hb, hj, get?, hl]

@[simp]
theorem keys_modify (m : OrderedMap κ α) (k : κ) (f : α → α) : (m.modify k f).keys = m.keys := by
  simp only [keys, modify, List.map_map]
  apply List.map_congr_left
  intro e _
  by_cases he : e.1 = k <;> simp [he]

theorem get?_modify (m : OrderedMap κ α) (k j : κ) (f : α → α) :
    (m.modify k f).get? j = (m.get? j).map fun a => if j = k then f a else a := by
  simp only [get?, modify]
  induction m.entries with
  | nil => rfl
  | cons e entries ih =>
    obtain ⟨i, a⟩ := e
    rw [List.map_cons]
    by_cases hj : j = i
    · subst hj
      by_cases hk : j = k <;> simp [hk]
    · have hb : (j == i) = false := beq_eq_false_iff_ne.2 hj
      by_cases hk : i = k
      · subst hk
        simp [List.lookup_cons, hb, ih]
      · simp [List.lookup_cons, hb, hk, ih]

end OrderedMap

end BlockGraph
