import ScraperTimeline.Json.Reader
import ScraperTimeline.Proofs.Tree.Sorted

/-!
Entries that are inserted by key, the last value of a key winning: as if they were put in one after another and
then sorted.
-/
namespace ScraperTimeline.Json
open ScraperTimeline.Tree

variable {α β : Type} {key other : String} {value : α} {entries : List (String × α)}

/-! ### Order -/

theorem insertSorted_of_forall_lt (h : ∀ entry ∈ entries, entry.1 < key) :
    insertSorted key value entries = entries ++ [(key, value)] := by
  induction entries with
  | nil => rfl
  | cons entry entries ih =>
      obtain ⟨hlt, hrest⟩ := List.forall_mem_cons.mp h
      rw [insertSorted, if_neg (String.lt_asymm hlt), if_neg (String.ne_of_lt hlt).symm, ih hrest]
      rfl

-- Entries that are sorted come to stand one behind the other.
theorem foldl_insertSorted {before entries : List (String × α)}
    (h : (before ++ entries).Pairwise (·.1 < ·.1)) :
    entries.foldl (fun sorted (key, value) => insertSorted key value sorted) before = before ++ entries := by
  induction entries generalizing before with
  | nil => simp
  | cons entry entries ih =>
      obtain ⟨key, value⟩ := entry
      have hlt : ∀ earlier ∈ before, earlier.1 < key := fun earlier hearlier =>
        (List.pairwise_append.mp h).2.2 earlier hearlier (key, value) List.mem_cons_self
      rw [List.foldl_cons]
      dsimp only
      rw [insertSorted_of_forall_lt hlt, ih]
      · simp
      · simpa using h

theorem key_of_mem_insertSorted {entry : String × α} (h : entry ∈ insertSorted key value entries) :
    entry.1 = key ∨ entry ∈ entries := by
  fun_induction insertSorted key value entries with
  | case1 => exact .inl (by rw [List.mem_singleton.mp h])
  | case2 => exact (List.mem_cons.mp h).imp_left (congrArg Prod.fst)
  | case3 => exact (List.mem_cons.mp h).imp (congrArg Prod.fst) (List.mem_cons_of_mem _)
  | case4 k v rest _ _ ih =>
      rcases List.mem_cons.mp h with rfl | h
      · exact .inr List.mem_cons_self
      · exact (ih h).imp_right (List.mem_cons_of_mem _)

theorem pairwise_insertSorted (h : entries.Pairwise (·.1 < ·.1)) :
    (insertSorted key value entries).Pairwise (·.1 < ·.1) := by
  fun_induction insertSorted key value entries with
  | case1 => exact List.pairwise_singleton _ _
  | case2 k v rest hlt =>
      refine List.pairwise_cons.mpr ⟨fun entry hentry => ?_, h⟩
      rcases List.mem_cons.mp hentry with rfl | hentry
      · exact hlt
      · exact String.lt_trans hlt ((List.pairwise_cons.mp h).1 entry hentry)
  | case3 => exact List.pairwise_cons.mpr (List.pairwise_cons.mp h)
  | case4 k v rest hnot hne ih =>
      obtain ⟨hfirst, hrest⟩ := List.pairwise_cons.mp h
      have hlt : k < key := by
        by_contra hnot'
        exact hne (String.le_antisymm (String.not_lt.mp hnot') (String.not_lt.mp hnot))
      refine List.pairwise_cons.mpr ⟨fun entry hentry => ?_, ih hrest⟩
      rcases key_of_mem_insertSorted hentry with heq | hentry
      · exact heq ▸ hlt
      · exact hfirst entry hentry

theorem pairwise_foldl_insertSorted {before : List (String × α)} (h : before.Pairwise (·.1 < ·.1)) :
    (entries.foldl (fun sorted (key, value) => insertSorted key value sorted) before).Pairwise (·.1 < ·.1) := by
  induction entries generalizing before with
  | nil => exact h
  | cons entry entries ih => exact ih (pairwise_insertSorted h)

/-! ### Values -/

private theorem lookup_entry (rest : List (String × α)) :
    ((key, value) :: rest).lookup other = if other = key then some value else rest.lookup other := by
  by_cases h : other = key
  · rw [h, List.lookup_cons_self, if_pos rfl]
  · have hne : (other == key) = false := by simpa using h
    rw [List.lookup_cons, hne, if_neg h]

theorem lookup_insertSorted :
    (insertSorted key value entries).lookup other = if other = key then some value else entries.lookup other := by
  fun_induction insertSorted key value entries with
  | case1 => exact lookup_entry []
  | case2 => exact lookup_entry _
  | case3 =>
      rw [lookup_entry, lookup_entry]
      split <;> rfl
  | case4 k v rest _ hne ih =>
      rw [lookup_entry, lookup_entry, ih]
      split
      next hk => rw [if_neg fun hkey => hne (hkey.symm.trans hk)]
      next => rfl

theorem map_insertSorted (f : α → β) :
    (insertSorted key value entries).map (fun entry => (entry.1, f entry.2)) =
      insertSorted key (f value) (entries.map fun entry => (entry.1, f entry.2)) := by
  fun_induction insertSorted key value entries with
  | case1 => rfl
  | case2 k v rest hlt => simp [insertSorted, hlt]
  | case3 v rest hnot => simp [insertSorted]
  | case4 k v rest hnot hne ih => simp [insertSorted, hnot, hne, ih]

theorem lookup_foldl_insertSorted {before fields : List (String × α)}
    (h : ∀ key, before.lookup key = fields.lookup key) (key : String) :
    (entries.foldl (fun sorted (key, value) => insertSorted key value sorted) before).lookup key =
      (entries.foldl (fun fields (key, value) => Fields.put key value fields) fields).lookup key := by
  induction entries generalizing before fields with
  | nil => exact h key
  | cons entry entries ih =>
      refine ih fun other => ?_
      rw [lookup_insertSorted, Fields.lookup_put, h]

theorem foldl_insertSorted_nil (entries : List (String × α)) :
    entries.foldl (fun sorted (key, value) => insertSorted key value sorted) [] =
      sortByKey (Fields.ofList entries) := by
  refine Fields.eq_of_sorted_lookup (pairwise_foldl_insertSorted .nil) (pairwise_sortByKey (Fields.nodup_keys_ofList entries)) ?_
  intro key
  rw [lookup_sortByKey]
  exact lookup_foldl_insertSorted (fun _ => rfl) key

end ScraperTimeline.Json
