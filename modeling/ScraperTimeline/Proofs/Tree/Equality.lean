import ScraperTimeline.Proofs.Tree.Basic
import ScraperTimeline.Proofs.Tree.Fields
import ScraperTimeline.Tree.Equality
import Mathlib.Data.List.Forall2

namespace ScraperTimeline

namespace Binary64

theorem equal_refl {x : Binary64} (h : x.isNaN = false) : x.equal x := by
  simp [equal, h]

theorem equal_symm {x y : Binary64} (h : x.equal y) : y.equal x := by
  simp only [equal, Bool.and_eq_true, Bool.or_eq_true, beq_iff_eq] at h ⊢
  obtain ⟨⟨hx, hy⟩, rfl | ⟨hzx, hzy⟩⟩ := h
  · exact ⟨⟨hx, hy⟩, .inl rfl⟩
  · exact ⟨⟨hy, hx⟩, .inr ⟨hzy, hzx⟩⟩

theorem equal_trans {x y z : Binary64} (hxy : x.equal y) (hyz : y.equal z) : x.equal z := by
  simp only [equal, Bool.and_eq_true, Bool.or_eq_true, beq_iff_eq] at hxy hyz ⊢
  obtain ⟨⟨hx, -⟩, rfl | ⟨hzx, hzy⟩⟩ := hxy
  · exact hyz
  · obtain ⟨⟨-, hz⟩, rfl | ⟨-, hzz⟩⟩ := hyz
    · exact ⟨⟨hx, hz⟩, .inr ⟨hzx, hzy⟩⟩
    · exact ⟨⟨hx, hz⟩, .inr ⟨hzx, hzz⟩⟩

end Binary64

namespace Tree

attribute [local simp] equal equalItems fieldsWithin

theorem equalItems_iff {as bs : List Tree} :
    equalItems as bs ↔ List.Forall₂ (fun a b => equal a b) as bs := by
  induction as generalizing bs with
  | nil => cases bs <;> simp
  | cons a as ih => cases bs <;> simp [ih]

theorem fieldsWithin_iff {as bs : List (String × Tree)} :
    fieldsWithin as bs ↔ ∀ field ∈ as, ∃ b, bs.lookup field.1 = some b ∧ equal field.2 b := by
  induction as with
  | nil => simp
  | cons field as ih =>
      obtain ⟨key, a⟩ := field
      simp only [fieldsWithin, Bool.and_eq_true, ih, List.forall_mem_cons]
      cases bs.lookup key <;> simp

@[simp] theorem equal_null_iff {b : Tree} : Tree.null.equal b ↔ .null = b := by
  cases b <;> simp

@[simp] theorem equal_bool_iff {x : Bool} {b : Tree} : (Tree.bool x).equal b ↔ .bool x = b := by
  cases b <;> simp

@[simp] theorem equal_int_iff {n : Int64} {b : Tree} : (Tree.int n).equal b ↔ .int n = b := by
  cases b <;> simp

@[simp] theorem equal_string_iff {s : String} {b : Tree} : (Tree.string s).equal b ↔ .string s = b := by
  cases b <;> simp

theorem equal_float_iff {x : Binary64} {b : Tree} :
    (Tree.float x).equal b ↔ ∃ y, b = .float y ∧ x.equal y := by
  cases b <;> simp

theorem equal_seq_iff {as : List Tree} {b : Tree} :
    (Tree.seq as).equal b ↔ ∃ bs, b = .seq bs ∧ List.Forall₂ (fun a b => equal a b) as bs := by
  cases b <;> simp [equalItems_iff]

theorem equal_map_iff {as : List (String × Tree)} {b : Tree} :
    (Tree.map as).equal b ↔ ∃ bs, b = .map bs ∧ as.length = bs.length ∧
      ∀ field ∈ as, ∃ other, bs.lookup field.1 = some other ∧ equal field.2 other := by
  cases b <;> simp [fieldsWithin_iff]

theorem kind_eq_of_equal {a b : Tree} (h : a.equal b) : a.kind = b.kind := by
  cases a with
  | null | bool _ | int _ | string _ =>
      simp only [equal_null_iff, equal_bool_iff, equal_int_iff, equal_string_iff] at h
      rw [← h]
  | float x =>
      obtain ⟨y, rfl, -⟩ := equal_float_iff.mp h
      rfl
  | seq as =>
      obtain ⟨bs, rfl, -⟩ := equal_seq_iff.mp h
      rfl
  | map as =>
      obtain ⟨bs, rfl, -⟩ := equal_map_iff.mp h
      rfl

-- A tree equals itself unless it holds a NaN or has fields that are hidden by others.
theorem equal_refl {a : Tree} (hkeyed : a.keyed) (hnan : a.nanFree) : a.equal a := by
  induction a with
  | null | bool _ | int _ | string _ => simp
  | float x => exact equal_float_iff.mpr ⟨x, rfl, Binary64.equal_refl (nanFree_float_iff.mp hnan)⟩
  | seq as ih =>
      rw [keyed_seq_iff] at hkeyed
      rw [nanFree_seq_iff] at hnan
      refine equal_seq_iff.mpr ⟨as, rfl, List.forall₂_same.mpr ?_⟩
      intro t ht
      exact ih t ht (hkeyed t ht) (hnan t ht)
  | map as ih =>
      obtain ⟨hkeys, hvalues⟩ := keyed_map_iff.mp hkeyed
      rw [nanFree_map_iff] at hnan
      refine equal_map_iff.mpr ⟨as, rfl, rfl, ?_⟩
      intro field hfield
      exact ⟨field.2, Fields.lookup_of_mem hkeys hfield, ih field hfield (hvalues _ hfield) (hnan _ hfield)⟩

theorem equal_trans {a b c : Tree} (hab : a.equal b) (hbc : b.equal c) : a.equal c := by
  induction a generalizing b c with
  | null | bool _ | int _ | string _ =>
      simp only [equal_null_iff, equal_bool_iff, equal_int_iff, equal_string_iff] at hab
      exact hab ▸ hbc
  | float x =>
      obtain ⟨y, rfl, hxy⟩ := equal_float_iff.mp hab
      obtain ⟨z, rfl, hyz⟩ := equal_float_iff.mp hbc
      exact equal_float_iff.mpr ⟨z, rfl, Binary64.equal_trans hxy hyz⟩
  | seq as ih =>
      obtain ⟨bs, rfl, has⟩ := equal_seq_iff.mp hab
      obtain ⟨cs, rfl, hbs⟩ := equal_seq_iff.mp hbc
      refine equal_seq_iff.mpr ⟨cs, rfl, ?_⟩
      clear hab hbc
      induction has generalizing cs with
      | nil => exact hbs
      | cons hhead htail ihtail =>
          cases hbs with
          | cons hnext hrest =>
              exact .cons (ih _ (by simp) hhead hnext)
                (ihtail (fun t ht => ih t (List.mem_cons_of_mem _ ht)) _ hrest)
  | map as ih =>
      obtain ⟨bs, rfl, hlen, has⟩ := equal_map_iff.mp hab
      obtain ⟨cs, rfl, hlen', hbs⟩ := equal_map_iff.mp hbc
      refine equal_map_iff.mpr ⟨cs, rfl, hlen.trans hlen', ?_⟩
      intro field hfield
      obtain ⟨other, hother, hfirst⟩ := has field hfield
      obtain ⟨last, hlast, hsecond⟩ := hbs _ (Fields.mem_of_lookup hother)
      exact ⟨last, hlast, ih field hfield hfirst hsecond⟩

theorem equal_symm {a b : Tree} (ha : a.keyed) (hb : b.keyed) (hab : a.equal b) : b.equal a := by
  induction a generalizing b with
  | null | bool _ | int _ | string _ =>
      simp only [equal_null_iff, equal_bool_iff, equal_int_iff, equal_string_iff] at hab
      simp [← hab]
  | float x =>
      obtain ⟨y, rfl, hxy⟩ := equal_float_iff.mp hab
      exact equal_float_iff.mpr ⟨x, rfl, Binary64.equal_symm hxy⟩
  | seq as ih =>
      obtain ⟨bs, rfl, has⟩ := equal_seq_iff.mp hab
      refine equal_seq_iff.mpr ⟨as, rfl, ?_⟩
      rw [keyed_seq_iff] at ha hb
      clear hab
      induction has with
      | nil => exact .nil
      | cons hhead htail ihtail =>
          rw [List.forall_mem_cons] at ha hb ih
          exact .cons (ih.1 ha.1 hb.1 hhead) (ihtail ih.2 ha.2 hb.2)
  | map as ih =>
      obtain ⟨bs, rfl, hlen, has⟩ := equal_map_iff.mp hab
      obtain ⟨haskeys, hasvalues⟩ := keyed_map_iff.mp ha
      obtain ⟨hbskeys, hbsvalues⟩ := keyed_map_iff.mp hb
      have hsub : Fields.keys as ⊆ Fields.keys bs := by
        intro key hkey
        obtain ⟨value, hfield⟩ := Fields.exists_of_mem_keys hkey
        obtain ⟨other, hother, -⟩ := has _ hfield
        exact Fields.mem_keys (Fields.mem_of_lookup hother)
      refine equal_map_iff.mpr ⟨as, rfl, hlen.symm, ?_⟩
      rintro ⟨key, b⟩ hfield
      -- The lists are of one length, so no key of the second is missing in the first.
      obtain ⟨a, hfirst⟩ := Fields.exists_of_mem_keys
        (Fields.keys_subset_of_length_eq haskeys hlen hsub (Fields.mem_keys hfield))
      obtain ⟨other, hother, hequal⟩ := has _ hfirst
      have hsame : other = b := by
        rw [Fields.lookup_of_mem hbskeys hfield] at hother
        exact (Option.some.inj hother).symm
      subst hsame
      exact ⟨a, Fields.lookup_of_mem haskeys hfirst,
        ih _ hfirst (hasvalues _ hfirst) (hbsvalues _ hfield) hequal⟩

end Tree
end ScraperTimeline
