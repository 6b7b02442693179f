import ScraperTimeline.Tree.Fields
import Mathlib.Data.List.Nodup

namespace ScraperTimeline.Tree

-- Induction in which the items of a sequence and the values of a mapping come as members of a list.
@[induction_eliminator]
theorem induct {P : Tree → Prop} (null : P .null) (bool : ∀ value, P (.bool value))
    (int : ∀ value, P (.int value)) (float : ∀ value, P (.float value))
    (string : ∀ value, P (.string value)) (seq : ∀ items, (∀ t ∈ items, P t) → P (.seq items))
    (map : ∀ fields, (∀ field ∈ fields, P field.2) → P (.map fields)) (t : Tree) : P t := by
  refine @Tree.rec P (fun items => ∀ t ∈ items, P t) (fun fields => ∀ field ∈ fields, P field.2)
    (fun field => P field.2) null bool int float string seq map ?_ ?_ ?_ ?_ ?_ t
  · simp
  · intro head tail hhead htail
    exact List.forall_mem_cons.mpr ⟨hhead, htail⟩
  · simp
  · intro head tail hhead htail
    exact List.forall_mem_cons.mpr ⟨hhead, htail⟩
  · intro key value hvalue
    exact hvalue

mutual

-- Whether every node is of a kind.
def all (p : Tree → Bool) : Tree → Bool
  | .seq items => p (.seq items) && allItems p items
  | .map fields => p (.map fields) && allFields p fields
  | t => p t

def allItems (p : Tree → Bool) : List Tree → Bool
  | [] => true
  | t :: rest => all p t && allItems p rest

def allFields (p : Tree → Bool) : List (String × Tree) → Bool
  | [] => true
  | (_, t) :: rest => all p t && allFields p rest

end

section
variable {p : Tree → Bool}

theorem all_seq_iff {items : List Tree} :
    (Tree.seq items).all p ↔ p (.seq items) ∧ ∀ t ∈ items, t.all p := by
  have hitems : allItems p items ↔ ∀ t ∈ items, t.all p := by
    induction items with
    | nil => simp [allItems]
    | cons t rest ih => simp [allItems, ih]
  rw [all, Bool.and_eq_true, hitems]

theorem all_map_iff {fields : List (String × Tree)} :
    (Tree.map fields).all p ↔ p (.map fields) ∧ ∀ field ∈ fields, field.2.all p := by
  have hfields : allFields p fields ↔ ∀ field ∈ fields, field.2.all p := by
    induction fields with
    | nil => simp [allFields]
    | cons field rest ih => simp [allFields, ih]
  rw [all, Bool.and_eq_true, hfields]

theorem all_mono {q : Tree → Bool} (h : ∀ t, p t → q t) {t : Tree} (ht : t.all p) : t.all q := by
  induction t with
  | null | bool | int | float | string => exact h _ ht
  | seq items ih =>
      rw [all_seq_iff] at ht ⊢
      exact ⟨h _ ht.1, fun t hmem => ih t hmem (ht.2 t hmem)⟩
  | map fields ih =>
      rw [all_map_iff] at ht ⊢
      exact ⟨h _ ht.1, fun field hmem => ih field hmem (ht.2 field hmem)⟩

end

mutual

-- The number of sequences and mappings around the deepest node.
def depth : Tree → Nat
  | .seq items => depthOfItems items + 1
  | .map fields => depthOfFields fields + 1
  | _ => 0

def depthOfItems : List Tree → Nat
  | [] => 0
  | t :: rest => max (depth t) (depthOfItems rest)

def depthOfFields : List (String × Tree) → Nat
  | [] => 0
  | (_, t) :: rest => max (depth t) (depthOfFields rest)

end

theorem depth_seq_le_iff {items : List Tree} {n : Nat} :
    (Tree.seq items).depth ≤ n + 1 ↔ ∀ t ∈ items, t.depth ≤ n := by
  have hitems : depthOfItems items ≤ n ↔ ∀ t ∈ items, t.depth ≤ n := by
    induction items with
    | nil => simp [depthOfItems]
    | cons t rest ih => rw [depthOfItems, Nat.max_le, ih, List.forall_mem_cons]
  rw [depth, Nat.add_le_add_iff_right, hitems]

theorem depth_map_le_iff {fields : List (String × Tree)} {n : Nat} :
    (Tree.map fields).depth ≤ n + 1 ↔ ∀ field ∈ fields, field.2.depth ≤ n := by
  have hfields : depthOfFields fields ≤ n ↔ ∀ field ∈ fields, field.2.depth ≤ n := by
    induction fields with
    | nil => simp [depthOfFields]
    | cons field rest ih => rw [depthOfFields, Nat.max_le, ih, List.forall_mem_cons]
  rw [depth, Nat.add_le_add_iff_right, hfields]

-- No key occurs twice in a mapping.
def keyed (t : Tree) : Bool :=
  t.all fun
    | .map fields => (Fields.keys fields).Nodup
    | _ => true

def nanFree (t : Tree) : Bool :=
  t.all fun
    | .float x => !x.isNaN
    | _ => true

-- No number in the tree has a fraction or an exponent.
def floatFree (t : Tree) : Bool :=
  t.all fun
    | .float _ => false
    | _ => true

-- The positions in a sequence are signed words.
def indexable (t : Tree) : Bool :=
  t.all fun
    | .seq items => items.length < 0x8000000000000000
    | _ => true

theorem keyed_seq_iff {items : List Tree} : (Tree.seq items).keyed ↔ ∀ t ∈ items, t.keyed := by
  simp [keyed, all_seq_iff]

theorem keyed_map_iff {fields : List (String × Tree)} :
    (Tree.map fields).keyed ↔ (Fields.keys fields).Nodup ∧ ∀ field ∈ fields, field.2.keyed := by
  simp [keyed, all_map_iff]

theorem nanFree_float_iff {x : Binary64} : (Tree.float x).nanFree ↔ x.isNaN = false := by
  simp [nanFree, all]

theorem nanFree_seq_iff {items : List Tree} : (Tree.seq items).nanFree ↔ ∀ t ∈ items, t.nanFree := by
  simp [nanFree, all_seq_iff]

theorem nanFree_map_iff {fields : List (String × Tree)} :
    (Tree.map fields).nanFree ↔ ∀ field ∈ fields, field.2.nanFree := by
  simp [nanFree, all_map_iff]

theorem floatFree_seq_iff {items : List Tree} : (Tree.seq items).floatFree ↔ ∀ t ∈ items, t.floatFree := by
  simp [floatFree, all_seq_iff]

theorem floatFree_map_iff {fields : List (String × Tree)} :
    (Tree.map fields).floatFree ↔ ∀ field ∈ fields, field.2.floatFree := by
  simp [floatFree, all_map_iff]

theorem nanFree_of_floatFree {t : Tree} (h : t.floatFree) : t.nanFree := by
  refine all_mono (fun t ht => ?_) h
  cases t with
  | float => cases ht
  | _ => rfl

theorem indexable_seq_iff {items : List Tree} :
    (Tree.seq items).indexable ↔
      items.length < 0x8000000000000000 ∧ ∀ t ∈ items, t.indexable := by
  simp [indexable, all_seq_iff]

theorem indexable_map_iff {fields : List (String × Tree)} :
    (Tree.map fields).indexable ↔ ∀ field ∈ fields, field.2.indexable := by
  simp [indexable, all_map_iff]

end ScraperTimeline.Tree
