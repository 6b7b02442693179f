import ScraperTimeline.Tree.Sorted
import Mathlib.Data.List.Basic

namespace ScraperTimeline.Tree

section
variable {α : Type} {key : String} {fields : List (String × α)}

private theorem lookup_eq_head? (key : String) (fields : List (String × α)) :
    fields.lookup key = ((fields.filter fun field => key == field.1).head?).map (·.2) := by
  induction fields with
  | nil => rfl
  | cons field rest ih =>
      obtain ⟨k, v⟩ := field
      cases h : key == k <;> simp [List.lookup_cons, h, ih]

theorem lookup_map_value {β : Type} (f : α → β) (key : String) (fields : List (String × α)) :
    (fields.map fun field => (field.1, f field.2)).lookup key = (fields.lookup key).map f := by
  induction fields with
  | nil => rfl
  | cons field rest ih =>
      obtain ⟨k, v⟩ := field
      cases h : key == k <;> simp [List.lookup_cons, h, ih]

theorem sortByKey_perm (fields : List (String × α)) : (sortByKey fields).Perm fields := List.mergeSort_perm ..

theorem mem_sortByKey {field : String × α} : field ∈ sortByKey fields ↔ field ∈ fields :=
  List.mem_mergeSort

-- Sorting is stable, so of several fields with one key the first stays the first.
theorem filter_sortByKey (key : String) (fields : List (String × α)) :
    (sortByKey fields).filter (fun field => key == field.1) =
      fields.filter fun field => key == field.1 := by
  have hperm := (List.mergeSort_perm fields fun a b => decide (a.1 ≤ b.1)).filter
    fun field => key == field.1
  have hsame : (fields.filter fun field => key == field.1).Pairwise
      fun a b => decide (a.1 ≤ b.1) = true := by
    refine List.Pairwise.imp_of_mem (R := fun _ _ => True) ?_ (List.pairwise_of_forall (by simp))
    intro a b ha hb _
    have ha := (List.mem_filter.mp ha).2
    have hb := (List.mem_filter.mp hb).2
    rw [beq_iff_eq] at ha hb
    simp [← ha, ← hb]
  have hsub := List.sublist_mergeSort (fun a b c hab hbc => ?_) (fun a b => ?_) hsame
    List.filter_sublist
  · have hfilter := hsub.filter fun field => key == field.1
    rw [List.filter_filter] at hfilter
    simp only [Bool.and_self] at hfilter
    exact (hfilter.eq_of_length hperm.length_eq.symm).symm
  · simp only [decide_eq_true_eq] at hab hbc ⊢
    exact String.le_trans hab hbc
  · simp only [Bool.or_eq_true, decide_eq_true_eq]
    exact String.le_total a.1 b.1

@[simp] theorem lookup_sortByKey (key : String) (fields : List (String × α)) :
    (sortByKey fields).lookup key = fields.lookup key := by
  rw [lookup_eq_head?, filter_sortByKey, ← lookup_eq_head?]

end

theorem sortedItems_eq (items : List Tree) : sortedItems items = items.map sorted := by
  induction items with
  | nil => rfl
  | cons t rest ih => rw [sortedItems, ih, List.map_cons]

theorem sortedFields_eq (fields : List (String × Tree)) :
    sortedFields fields = fields.map fun field => (field.1, field.2.sorted) := by
  induction fields with
  | nil => rfl
  | cons field rest ih => rw [sortedFields, ih, List.map_cons]

theorem finiteItems_eq (items : List Tree) : finiteItems items = items.map finite := by
  induction items with
  | nil => rfl
  | cons t rest ih => rw [finiteItems, ih, List.map_cons]

theorem finiteFields_eq (fields : List (String × Tree)) :
    finiteFields fields = fields.map fun field => (field.1, field.2.finite) := by
  induction fields with
  | nil => rfl
  | cons field rest ih => rw [finiteFields, ih, List.map_cons]

@[simp] theorem plain_null : plain .null = .null := rfl

@[simp] theorem plain_bool (b : Bool) : plain (.bool b) = .bool b := rfl

@[simp] theorem plain_int (n : Int64) : plain (.int n) = .int n := rfl

@[simp] theorem plain_string (s : String) : plain (.string s) = .string s := rfl

theorem plain_float (x : Binary64) : plain (.float x) = if x.isFinite then .float x else .null := by
  simp only [plain, finite]
  split <;> rfl

@[simp] theorem plain_seq (items : List Tree) : plain (.seq items) = .seq (items.map plain) := by
  simp only [plain, finite, sorted, finiteItems_eq, sortedItems_eq, List.map_map]
  rfl

@[simp] theorem plain_map (fields : List (String × Tree)) :
    plain (.map fields) = .map (sortByKey (fields.map fun field => (field.1, field.2.plain))) := by
  simp only [plain, finite, sorted, finiteFields_eq, sortedFields_eq, List.map_map]
  rfl

theorem lookup_plain (key : String) (fields : List (String × Tree)) :
    (sortByKey (fields.map fun field => (field.1, field.2.plain))).lookup key = (fields.lookup key).map plain := by
  rw [lookup_sortByKey, lookup_map_value]

end ScraperTimeline.Tree
