import TourSearch.Mapping
import Mathlib

/-!
Look-ups in mappings whose keys are listed once: they find exactly the listed pairs.
-/

namespace TourSearch.Mapping

variable {κ ν : Type} [DecidableEq κ]

@[simp] theorem get?_empty (k : κ) : (empty : Mapping κ ν).get? k = none := rfl

omit [DecidableEq κ] in
@[simp] theorem keys_empty : (empty : Mapping κ ν).keys = [] := rfl

theorem get?_cons (k : κ) (v : ν) (rest : List (κ × ν)) (k' : κ) :
    (⟨(k, v) :: rest⟩ : Mapping κ ν).get? k' =
      if k = k' then some v else (⟨rest⟩ : Mapping κ ν).get? k' := by
  by_cases h : k = k' <;> simp [get?, h]

theorem get?_eq_none_iff {m : Mapping κ ν} {k : κ} : m.get? k = none ↔ k ∉ m.keys := by
  simp only [get?, keys, Option.map_eq_none_iff, List.find?_eq_none, decide_eq_true_eq,
    List.mem_map, not_exists, not_and]

theorem contains_eq_isSome (m : Mapping κ ν) (k : κ) : m.contains k = (m.get? k).isSome := by
  rw [contains, get?, Option.isSome_map, List.isSome_find?]

theorem get?_eq_some_iff {m : Mapping κ ν} (h : m.keys.Nodup) {k : κ} {v : ν} :
    m.get? k = some v ↔ (k, v) ∈ m.entries := by
  obtain ⟨l⟩ := m
  simp only [get?, keys] at h ⊢
  induction l with
  | nil => simp
  | cons e rest ih =>
      obtain ⟨k', v'⟩ := e
      rw [List.map_cons, List.nodup_cons] at h
      by_cases hk : k' = k
      · subst hk
        have hnot : (k', v) ∉ rest := fun hmem =>
          h.1 (List.mem_map.mpr ⟨_, hmem, rfl⟩)
        simp [hnot, eq_comm]
      · have hne : k ≠ k' := fun heq => hk heq.symm
        simpa [hk, hne] using ih h.2

theorem nodup_keys_put {m : Mapping κ ν} (h : m.keys.Nodup) (k : κ) (v : ν) :
    (m.put k v).keys.Nodup := by
  rw [keys_put]
  split
  · exact h
  · rename_i hk
    rw [List.nodup_append]
    refine ⟨h, List.nodup_singleton k, ?_⟩
    rintro a ha b hb rfl
    exact hk (List.mem_singleton.mp hb ▸ ha)

omit [DecidableEq κ] in
theorem size_eq_length_keys (m : Mapping κ ν) : m.size = m.keys.length := by
  rw [size, keys, List.length_map]

theorem size_put_of_notMem {m : Mapping κ ν} {k : κ} (h : k ∉ m.keys) (v : ν) :
    (m.put k v).size = m.size + 1 := by
  rw [size_eq_length_keys, size_eq_length_keys, keys_put, if_neg h, List.length_append,
    List.length_singleton]

theorem keys_erase (m : Mapping κ ν) (k : κ) : (m.erase k).keys = m.keys.filter (· ≠ k) := by
  simp [erase, keys, List.filter_map, Function.comp_def]

theorem size_erase_of_mem {m : Mapping κ ν} (hnodup : m.keys.Nodup) {k : κ} (h : k ∈ m.keys) :
    (m.erase k).size + 1 = m.size := by
  have hkeys : (m.erase k).keys = m.keys.erase k := by
    rw [keys_erase, hnodup.erase_eq_filter]
    exact List.filter_congr fun a _ => by simp [bne, beq_eq_decide]
  rw [size_eq_length_keys, size_eq_length_keys, hkeys, List.length_erase_of_mem h]
  exact Nat.sub_add_cancel (List.length_pos_of_mem h)

theorem get?_erase (m : Mapping κ ν) (k k' : κ) :
    (m.erase k).get? k' = if k' = k then none else m.get? k' := by
  obtain ⟨l⟩ := m
  simp only [get?, erase]
  induction l with
  | nil => simp
  | cons e rest ih =>
      obtain ⟨a, b⟩ := e
      by_cases hak : a = k
      · subst hak
        by_cases hk : k' = a
        · subst hk
          simp
        · have hne : a ≠ k' := fun heq => hk heq.symm
          simpa [hk, hne] using ih
      · by_cases hka : a = k'
        · subst hka
          simp [hak]
        · simpa [hak, hka] using ih

end TourSearch.Mapping
