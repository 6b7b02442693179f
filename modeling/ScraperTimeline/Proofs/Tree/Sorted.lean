import ScraperTimeline.Proofs.Tree.Plain
import ScraperTimeline.Proofs.Tree.Same

/-!
Trees with sorted mappings as a normal form. Equality of trees is an equivalence where there is no NaN, and where
there are no floats either, trees are equal just if sorting their mappings makes them the same.
-/
namespace ScraperTimeline

/-! ### Sorted entries -/

namespace Fields

variable {α : Type} {entries others : List (String × α)}

theorem nodup_keys_of_sorted (h : entries.Pairwise (·.1 < ·.1)) : (keys entries).Nodup :=
  List.pairwise_map.mpr (h.imp String.ne_of_lt)

-- Sorted entries are known by the values of their keys.
theorem eq_of_sorted_lookup (hentries : entries.Pairwise (·.1 < ·.1)) (hothers : others.Pairwise (·.1 < ·.1))
    (h : ∀ key, entries.lookup key = others.lookup key) : entries = others := by
  have hkeys := nodup_keys_of_sorted hentries
  have hkeys' := nodup_keys_of_sorted hothers
  have hperm : entries.Perm others := by
    refine (List.perm_ext_iff_of_nodup (.of_map _ hkeys) (.of_map _ hkeys')).mpr fun entry => ?_
    refine ⟨fun hmem => ?_, fun hmem => ?_⟩
    · exact mem_of_lookup ((h _).symm.trans (lookup_of_mem hkeys hmem))
    · exact mem_of_lookup ((h _).trans (lookup_of_mem hkeys' hmem))
  exact hperm.eq_of_pairwise (fun a b _ _ hlt hgt => absurd hgt (String.lt_asymm hlt)) hentries hothers

end Fields

namespace Tree

section
variable {α : Type} {entries : List (String × α)}

theorem nodup_keys_sortByKey (h : (Fields.keys entries).Nodup) : (Fields.keys (sortByKey entries)).Nodup :=
  ((sortByKey_perm entries).map Prod.fst).nodup_iff.mpr h

theorem pairwise_sortByKey (h : (Fields.keys entries).Nodup) : (sortByKey entries).Pairwise (·.1 < ·.1) := by
  have hle : (sortByKey entries).Pairwise fun a b => decide (a.1 ≤ b.1) = true := by
    refine List.pairwise_mergeSort (fun a b c hab hbc => ?_) (fun a b => ?_) entries
    · rw [decide_eq_true_eq] at hab hbc ⊢
      exact String.le_trans hab hbc
    · simpa using String.le_total a.1 b.1
  have hne : (sortByKey entries).Pairwise fun a b => a.1 ≠ b.1 :=
    List.pairwise_map.mp (nodup_keys_sortByKey h)
  refine (hle.and hne).imp fun ⟨hle, hne⟩ => ?_
  exact String.not_le.mp fun hge => hne (String.le_antisymm (by simpa using hle) hge)

end

/-! ### Sorted trees -/

theorem sorted_seq (items : List Tree) : (Tree.seq items).sorted = .seq (items.map sorted) := by
  rw [sorted, sortedItems_eq]

theorem sorted_map (fields : List (String × Tree)) :
    (Tree.map fields).sorted = .map (sortByKey (fields.map fun field => (field.1, field.2.sorted))) := by
  rw [sorted, sortedFields_eq]

variable {a b : Tree}

private theorem keys_sorted (fields : List (String × Tree)) :
    Fields.keys (fields.map fun field => (field.1, field.2.sorted)) = Fields.keys fields := by
  rw [Fields.keys, List.map_map]
  rfl

theorem keyed_sorted (h : a.keyed) : a.sorted.keyed := by
  induction a with
  | null | bool | int | float | string => exact h
  | seq items ih =>
      rw [keyed_seq_iff] at h
      rw [sorted_seq, keyed_seq_iff]
      intro t ht
      obtain ⟨source, hsource, rfl⟩ := List.mem_map.mp ht
      exact ih source hsource (h source hsource)
  | map fields ih =>
      obtain ⟨hkeys, hvalues⟩ := keyed_map_iff.mp h
      rw [sorted_map, keyed_map_iff]
      refine ⟨nodup_keys_sortByKey ((keys_sorted fields).symm ▸ hkeys), fun field hfield => ?_⟩
      obtain ⟨source, hsource, rfl⟩ := List.mem_map.mp (mem_sortByKey.mp hfield)
      exact ih source hsource (hvalues source hsource)

theorem equal_sorted {t : Tree} (hkeyed : t.keyed) (hnan : t.nanFree) : t.sorted.equal t := by
  induction t with
  | null => rfl
  | bool b => simp [sorted]
  | int n => simp [sorted]
  | float x => exact equal_refl hkeyed hnan
  | string s => simp [sorted]
  | seq items ih =>
      rw [keyed_seq_iff] at hkeyed
      rw [nanFree_seq_iff] at hnan
      rw [sorted_seq]
      refine equal_seq_iff.mpr ⟨items, rfl, ?_⟩
      rw [List.forall₂_map_left_iff]
      exact List.forall₂_same.mpr fun t ht => ih t ht (hkeyed t ht) (hnan t ht)
  | map fields ih =>
      obtain ⟨hkeys, hvalues⟩ := keyed_map_iff.mp hkeyed
      rw [nanFree_map_iff] at hnan
      rw [sorted_map]
      refine equal_map_iff.mpr ⟨fields, rfl, by simp [(sortByKey_perm _).length_eq], fun field hfield => ?_⟩
      obtain ⟨source, hsource, rfl⟩ := List.mem_map.mp (mem_sortByKey.mp hfield)
      exact ⟨source.2, Fields.lookup_of_mem hkeys hsource, ih source hsource (hvalues _ hsource) (hnan _ hsource)⟩

-- Sorting leaves no trace of the order of fields.
theorem Same.sorted_eq (h : Same a b) (hfree : a.floatFree) : a.sorted = b.sorted := by
  induction a generalizing b with
  | null | bool | int | string =>
      rcases h.eq_or with rfl | ⟨_, _, hfloat, -⟩ | ⟨_, _, hseq, -⟩ | ⟨_, _, hmap, -⟩
      · rfl
      · cases hfloat
      · cases hseq
      · cases hmap
  | float => cases hfree
  | seq as ih =>
      obtain ⟨bs, rfl, hitems⟩ := same_seq_iff.mp h
      rw [floatFree_seq_iff] at hfree
      rw [sorted_seq, sorted_seq]
      refine congrArg Tree.seq ?_
      clear h
      induction hitems with
      | nil => rfl
      | cons hhead _ ihtail =>
          rw [List.forall_mem_cons] at ih hfree
          rw [List.map_cons, List.map_cons, ih.1 hhead hfree.1, ihtail ih.2 hfree.2]
  | map as ih =>
      obtain ⟨bs, rfl, hfields⟩ := same_map_iff.mp h
      rw [floatFree_map_iff] at hfree
      rw [sorted_map, sorted_map]
      refine congrArg Tree.map (Fields.eq_of_sorted_lookup
        (pairwise_sortByKey ((keys_sorted as).symm ▸ hfields.left))
        (pairwise_sortByKey ((keys_sorted bs).symm ▸ hfields.right)) fun key => ?_)
      rw [lookup_sortByKey, lookup_sortByKey, lookup_map_value, lookup_map_value]
      have hrel := hfields.lookup key
      cases hvalue : as.lookup key with
      | none =>
          rw [hvalue] at hrel
          generalize bs.lookup key = other at hrel ⊢
          cases hrel
          rfl
      | some value =>
          obtain ⟨other, hother, hsame⟩ := hfields.exists_of_lookup hvalue
          have hfield := Fields.mem_of_lookup hvalue
          rw [hother]
          exact congrArg some (ih _ hfield hsame (hfree _ hfield))

theorem equal_iff_sorted_eq (ha : a.keyed) (hb : b.keyed) (hafree : a.floatFree) (hbfree : b.floatFree) :
    a.equal b ↔ a.sorted = b.sorted := by
  refine ⟨fun h => Same.sorted_eq ⟨ha, hb, h⟩ hafree, fun h => ?_⟩
  have hasorted : a.equal a.sorted :=
    equal_symm (keyed_sorted ha) ha (equal_sorted ha (nanFree_of_floatFree hafree))
  have hbsorted : b.sorted.equal b := equal_sorted hb (nanFree_of_floatFree hbfree)
  exact equal_trans (h ▸ hasorted) hbsorted

theorem equal_of_perm {as bs : List (String × Tree)} (hkeyed : (Tree.map as).keyed) (hnan : (Tree.map as).nanFree)
    (hperm : as.Perm bs) : (Tree.map as).equal (.map bs) := by
  obtain ⟨hkeys, hvalues⟩ := keyed_map_iff.mp hkeyed
  have hkeys' : (Fields.keys bs).Nodup := (hperm.map Prod.fst).nodup_iff.mp hkeys
  refine equal_map_iff.mpr ⟨bs, rfl, hperm.length_eq, fun field hfield => ⟨field.2, ?_, ?_⟩⟩
  · exact Fields.lookup_of_mem hkeys' (hperm.subset hfield)
  · exact equal_refl (hvalues field hfield) (nanFree_map_iff.mp hnan field hfield)

-- Equality is an equivalence of trees without NaN. It goes by the kinds of nodes and the order of items, and leaves
-- the order of fields aside: trees without floats are equal just if they are one tree when sorted.
theorem equality_forgets_field_order :
    (Equivalence fun a b : {t : Tree // t.keyed ∧ t.nanFree} => a.1.equal b.1 = true) ∧
      (∀ a b : Tree, a.keyed → b.keyed → a.floatFree → b.floatFree → (a.equal b ↔ a.sorted = b.sorted)) ∧
      (∀ a b : Tree, a.equal b → a.kind = b.kind) ∧
      (∀ as bs : List Tree, (Tree.seq as).equal (.seq bs) ↔ List.Forall₂ (fun a b => a.equal b) as bs) ∧
      ∀ as bs : List (String × Tree), (Tree.map as).keyed → (Tree.map as).nanFree → as.Perm bs →
        (Tree.map as).equal (.map bs) := by
  refine ⟨⟨fun a => ?_, fun {a b} h => ?_, equal_trans⟩, fun _ _ => equal_iff_sorted_eq, fun _ _ => kind_eq_of_equal,
    fun as bs => ?_, fun _ _ => equal_of_perm⟩
  · exact equal_refl a.2.1 a.2.2
  · exact equal_symm a.2.1 b.2.1 h
  · rw [equal_seq_iff]
    simp

-- Fields come in another order in two mappings, and items in a third tree.
theorem equality_forgets_field_order_rows :
    let name : String × Tree := ("name", .string "1")
    let index : String × Tree := ("index", .int 1)
    let a : Tree := .map [("rows", .seq [.map [name, index], .null]), ("axis", .map [])]
    let b : Tree := .map [("axis", .map []), ("rows", .seq [.map [index, name], .null])]
    let c : Tree := .map [("rows", .seq [.null, .map [name, index]]), ("axis", .map [])]
    (a.keyed ∧ b.keyed ∧ c.keyed) ∧ (a.floatFree ∧ b.floatFree ∧ c.floatFree) ∧
      a.sorted = b.sorted ∧ a.sorted ≠ c.sorted ∧ b.equal a ∧
      (Tree.map [name, index]).equal (.map [index, name]) := by
  intro name index a b c
  have hkeyed : a.keyed ∧ b.keyed ∧ c.keyed := by decide
  have hfree : a.floatFree ∧ b.floatFree ∧ c.floatFree := by decide
  obtain ⟨hequivalence, hsorted, -, -, hperm⟩ := equality_forgets_field_order
  have hab : a.equal b := by decide
  have hac : ¬a.equal c := by decide
  refine ⟨hkeyed, hfree, (hsorted a b hkeyed.1 hkeyed.2.1 hfree.1 hfree.2.1).mp hab, ?_, ?_, ?_⟩
  · exact fun h => hac ((hsorted a c hkeyed.1 hkeyed.2.2 hfree.1 hfree.2.2).mpr h)
  · exact hequivalence.symm (x := ⟨a, hkeyed.1, nanFree_of_floatFree hfree.1⟩)
      (y := ⟨b, hkeyed.2.1, nanFree_of_floatFree hfree.2.1⟩) hab
  · exact hperm [name, index] [index, name] (by decide) (by decide) (.swap ..)

end Tree
end ScraperTimeline
