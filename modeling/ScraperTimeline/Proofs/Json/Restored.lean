import ScraperTimeline.Proofs.Json.Written
import ScraperTimeline.Proofs.Tree.Equality

/-!
Trees that are written as text and read again. Everything comes back but numbers with a fraction or an
exponent, so a tree is restored if each of its doubles is.
-/
namespace ScraperTimeline

/-! ### Numbers -/

namespace Binary64

variable {magnitude : Nat} {x : Binary64}

theorem magnitude_ofMagnitude (negative : Bool) (h : magnitude < signPlace) :
    (ofMagnitude negative magnitude).magnitude = magnitude := by
  have hplace : signPlace = 2 ^ 63 := rfl
  rw [hplace] at h
  cases negative with
  | true =>
      have hlt : 2 ^ 63 + magnitude < 2 ^ 64 := by omega
      simp only [Binary64.magnitude, ofMagnitude, if_true, hplace, UInt64.toNat_ofNat', Nat.mod_eq_of_lt hlt]
      omega
  | false =>
      have hlt : magnitude < 2 ^ 64 := by omega
      simp only [Binary64.magnitude, ofMagnitude, Bool.false_eq_true, if_false, hplace, UInt64.toNat_ofNat',
        Nat.mod_eq_of_lt hlt]
      omega

theorem isNaN_ofMagnitude (negative : Bool) (h : magnitude ≤ infinityBits) :
    (ofMagnitude negative magnitude).isNaN = false := by
  have hlt : magnitude < signPlace := Nat.lt_of_le_of_lt h (by decide)
  simp [isNaN, magnitude_ofMagnitude negative hlt, h]

theorem isNaN_nearest (negative : Bool) (numerator denominator : Nat) :
    (nearest negative numerator denominator).isNaN = false := by
  apply isNaN_ofMagnitude
  simp only [nearestMagnitude]
  split
  · exact Nat.zero_le _
  · exact Nat.min_le_left _ _

theorem isNaN_neg (h : x.isNaN = false) : x.neg.isNaN = false :=
  isNaN_ofMagnitude _ (by simpa [isNaN] using h)

end Binary64

namespace DecimalLiteral
open Binary64

theorem isNaN_scale? {steps : Nat} {x y : Binary64} {power : Int} (hx : x.isNaN = false)
    (h : scale? steps x power = some y) : y.isNaN = false := by
  fun_induction scale? steps x power with
  | case1 steps x power _ _ scaled =>
      obtain rfl : scaled = y := Option.some.inj h
      exact isNaN_nearest _ _ _
  | case2 => cases h
  | case3 =>
      obtain rfl := Option.some.inj h
      exact isNaN_nearest _ _ _
  | case4 =>
      obtain rfl := Option.some.inj h
      exact hx
  | case5 => cases h
  | case6 =>
      obtain rfl := Option.some.inj h
      rfl
  | case7 _ _ _ _ _ _ ih => exact ih (isNaN_nearest _ _ _) h

theorem isNaN_toScaled? {l : DecimalLiteral} {y : Binary64} (h : l.toScaled? = some y) :
    y.isNaN = false := by
  obtain ⟨x, hx, rfl⟩ := Option.map_eq_some_iff.mp h
  have hscaled := isNaN_scale? (isNaN_nearest _ _ _) hx
  cases l.negative with
  | true => exact isNaN_neg hscaled
  | false => exact hscaled

end DecimalLiteral

namespace Json
open Text

-- Induction in which the items of an array and the values of an object come as members of a list.
theorem induct {P : Json → Prop} (null : P .null) (bool : ∀ b, P (.bool b)) (number : ∀ n, P (.number n))
    (string : ∀ s, P (.string s)) (halfString : P .halfString)
    (array : ∀ items, (∀ j ∈ items, P j) → P (.array items))
    (object : ∀ fields, (∀ field ∈ fields, P field.2) → P (.object fields)) (j : Json) : P j := by
  refine @Json.rec P (fun items => ∀ j ∈ items, P j) (fun fields => ∀ field ∈ fields, P field.2)
    (fun field => P field.2) null bool number string halfString array object ?_ ?_ ?_ ?_ ?_ j
  · simp
  · intro head tail hhead htail
    exact List.forall_mem_cons.mpr ⟨hhead, htail⟩
  · simp
  · intro head tail hhead htail
    exact List.forall_mem_cons.mpr ⟨hhead, htail⟩
  · intro key value hvalue
    exact hvalue

theorem itemsToTrees?_iff {items : List Json} {ts : List Tree} :
    itemsToTrees? items = some ts ↔ List.Forall₂ (fun j t => j.toTree? = some t) items ts := by
  induction items generalizing ts with
  | nil => cases ts <;> simp [itemsToTrees?]
  | cons j rest ih => cases ts <;> simp [itemsToTrees?, Option.bind_eq_some_iff, ih]

theorem fieldsToTrees?_iff {fields : List (String × Json)} {entries : List (String × Tree)} :
    fieldsToTrees? fields = some entries ↔
      List.Forall₂ (fun field entry => entry.1 = field.1 ∧ field.2.toTree? = some entry.2) fields entries := by
  induction fields generalizing entries with
  | nil => cases entries <;> simp [fieldsToTrees?]
  | cons field rest ih =>
      obtain ⟨key, j⟩ := field
      cases entries with
      | nil => simp [fieldsToTrees?, Option.bind_eq_some_iff]
      | cons entry entries =>
          obtain ⟨other, t⟩ := entry
          simp only [fieldsToTrees?, Option.bind_eq_bind, Option.bind_eq_some_iff, ih, List.forall₂_cons]
          constructor
          · rintro ⟨u, hu, us, hus, heq⟩
            cases heq
            exact ⟨⟨rfl, hu⟩, hus⟩
          · rintro ⟨⟨rfl, ht⟩, hrest⟩
            exact ⟨t, ht, entries, hrest, rfl⟩

theorem number_cases {n : Number} {t : Tree} (h : n.toTree? = some t) :
    (∃ m, t = .int m) ∨ ∃ (l : DecimalLiteral) (x : Binary64), l.toScaled? = some x ∧ t = .float x := by
  have hfloat {l : DecimalLiteral} (h : l.toScaled?.map Tree.float = some t) :
      ∃ (l : DecimalLiteral) (x : Binary64), l.toScaled? = some x ∧ t = .float x := by
    obtain ⟨x, hx, rfl⟩ := Option.map_eq_some_iff.mp h
    exact ⟨l, x, hx, rfl⟩
  cases n with
  | real literal => exact .inr (hfloat h)
  | whole negative digits =>
      simp only [Number.toTree?] at h
      split at h
      · exact .inr (hfloat h)
      · split at h
        · exact .inl ⟨_, (Option.some.inj h).symm⟩
        · exact .inr (hfloat h)

theorem keyed_nanFree_of_number {n : Number} {t : Tree} (h : n.toTree? = some t) : t.keyed ∧ t.nanFree := by
  obtain ⟨m, rfl⟩ | ⟨l, x, hx, rfl⟩ := number_cases h
  · exact ⟨rfl, rfl⟩
  · exact ⟨rfl, Tree.nanFree_float_iff.mpr (DecimalLiteral.isNaN_toScaled? hx)⟩

theorem exists_of_mem {α β : Type} {R : α → β → Prop} {as : List α} {bs : List β}
    (h : List.Forall₂ R as bs) : ∀ b ∈ bs, ∃ a ∈ as, R a b := by
  induction h with
  | nil => simp
  | @cons a b as bs hab _ ih =>
      refine List.forall_mem_cons.mpr ⟨⟨a, List.mem_cons_self, hab⟩, fun b hb => ?_⟩
      obtain ⟨a, ha, hab⟩ := ih b hb
      exact ⟨a, List.mem_cons_of_mem _ ha, hab⟩

theorem exists_forall₂ {α β : Type} {R : α → β → Prop} {as : List α} (h : ∀ a ∈ as, ∃ b, R a b) :
    ∃ bs, List.Forall₂ R as bs := by
  induction as with
  | nil => exact ⟨[], .nil⟩
  | cons a as ih =>
      obtain ⟨⟨b, hab⟩, has⟩ := List.forall_mem_cons.mp h
      obtain ⟨bs, hbs⟩ := ih has
      exact ⟨b :: bs, .cons hab hbs⟩

-- What is read has each key once and holds no NaN.
theorem keyed_nanFree_of_toTree? {j : Json} {t : Tree} (h : j.toTree? = some t) : t.keyed ∧ t.nanFree := by
  induction j using induct generalizing t with
  | null =>
      obtain rfl := Option.some.inj h
      exact ⟨rfl, rfl⟩
  | bool b =>
      obtain rfl := Option.some.inj h
      exact ⟨rfl, rfl⟩
  | number n => exact keyed_nanFree_of_number h
  | string s =>
      obtain rfl := Option.some.inj h
      exact ⟨rfl, rfl⟩
  | halfString => cases h
  | array items ih =>
      obtain ⟨ts, hts, rfl⟩ := Option.map_eq_some_iff.mp h
      have hmem := exists_of_mem (itemsToTrees?_iff.mp hts)
      rw [Tree.keyed_seq_iff, Tree.nanFree_seq_iff, ← forall₂_and]
      intro t ht
      obtain ⟨j, hj, htree⟩ := hmem t ht
      exact ih j hj htree
  | object fields ih =>
      obtain ⟨entries, hentries, rfl⟩ := Option.map_eq_some_iff.mp h
      have hmem := exists_of_mem (fieldsToTrees?_iff.mp hentries)
      rw [Tree.keyed_map_iff, Tree.nanFree_map_iff, and_assoc, ← forall₂_and]
      refine ⟨Fields.nodup_keys_ofList entries, fun field hfield => ?_⟩
      obtain ⟨entry, hentry, -, htree⟩ := hmem field (Fields.mem_of_mem_ofList hfield)
      exact ih entry hentry htree

/-! ### Documents of trees -/

theorem depth_ofTree (t : Tree) : (ofTree t).depth = t.depth := by
  have hscalar (n : Option Number) : (n.elim Json.null Json.number).depth = 0 := by cases n <;> rfl
  induction t with
  | null => rfl
  | bool b => rfl
  | int n => rfl
  | float x => exact hscalar _
  | string s => rfl
  | seq items ih =>
      rw [ofTree, ofItems_eq, depth, Tree.depth]
      congr 1
      induction items with
      | nil => rfl
      | cons t rest ihrest =>
          obtain ⟨ht, hrest⟩ := List.forall_mem_cons.mp ih
          rw [List.map_cons, itemsDepth, Tree.depthOfItems, ht, ihrest hrest]
  | map fields ih =>
      rw [ofTree, ofFields_eq, depth, Tree.depth]
      congr 1
      induction fields with
      | nil => rfl
      | cons field rest ihrest =>
          obtain ⟨ht, hrest⟩ := List.forall_mem_cons.mp ih
          rw [List.map_cons, fieldsDepth, Tree.depthOfFields, ht, ihrest hrest]

theorem toTree?_int (n : Int64) : (ofTree (.int n)).toTree? = some (.int n) := by
  have hlow : -0x8000000000000000 ≤ n.toInt := Int64.le_toInt n
  have hhigh : n.toInt < 0x8000000000000000 := Int64.toInt_lt n
  have hvalue : (if n.toInt < 0 then -(n.toInt.natAbs : Int) else n.toInt.natAbs) = n.toInt := by
    split <;> omega
  have hzero : ¬(n.toInt < 0 ∧ n.toInt.natAbs = 0) := by omega
  have hword : Tree.word? n.toInt = some n := by
    rw [Tree.word?, if_pos ⟨hlow, hhigh⟩, Int64.ofInt_toInt]
  change Number.toTree? (.whole (n.toInt < 0) (digits n.toInt.natAbs)) = _
  rw [Number.toTree?]
  simp only [digitsFrom?_digits, Option.getD_some, decide_eq_true_eq, hzero, if_false, hvalue, hword]

theorem toTree?_seq_iff {items : List Tree} {u : Tree} :
    (ofTree (.seq items)).toTree? = some u ↔
      ∃ us, u = .seq us ∧ List.Forall₂ (fun t u => (ofTree t).toTree? = some u) items us := by
  rw [ofTree, ofItems_eq, toTree?, Option.map_eq_some_iff]
  simp only [itemsToTrees?_iff, List.forall₂_map_left_iff]
  exact exists_congr fun us => and_comm.trans (and_congr_left fun _ => eq_comm)

theorem toTree?_map_iff {fields : List (String × Tree)} {u : Tree} (hkeys : (Fields.keys fields).Nodup) :
    (ofTree (.map fields)).toTree? = some u ↔ ∃ entries, u = .map entries ∧
      List.Forall₂ (fun field entry => entry.1 = field.1 ∧ (ofTree field.2).toTree? = some entry.2)
        fields entries := by
  have hlist {entries : List (String × Tree)}
      (h : List.Forall₂ (fun field entry => entry.1 = field.1 ∧ (ofTree field.2).toTree? = some entry.2)
        fields entries) : Fields.ofList entries = entries := by
    apply Fields.ofList_eq_self
    have hsame : Fields.keys entries = Fields.keys fields := by
      clear hkeys
      induction h with
      | nil => rfl
      | cons hfield _ ih => simp only [Fields.keys, List.map_cons, hfield.1] at ih ⊢; rw [ih]
    rwa [hsame]
  rw [ofTree, ofFields_eq, toTree?, Option.map_eq_some_iff]
  simp only [fieldsToTrees?_iff, List.forall₂_map_left_iff]
  constructor
  · rintro ⟨entries, hentries, rfl⟩
    exact ⟨entries, by rw [hlist hentries], hentries⟩
  · rintro ⟨entries, rfl, hentries⟩
    exact ⟨entries, hentries, by rw [hlist hentries]⟩

end Json

/-! ### Restored trees -/

namespace Tree

theorem ofJson?_toJson_eq (t : Tree) :
    ofJson? t.toJson = if t.depth ≤ Json.maxDepth then (Json.ofTree t).toTree? else none := by
  rw [ofJson?, Json.read?_toJson, ← Json.depth_ofTree]
  rfl

theorem ofJson?_toJson {t : Tree} (h : t.depth ≤ Json.maxDepth) :
    ofJson? t.toJson = (Json.ofTree t).toTree? := by
  rw [ofJson?_toJson_eq, if_pos h]

theorem keyed_nanFree_of_ofJson? {text : String} {t : Tree} (h : ofJson? text = some t) :
    t.keyed ∧ t.nanFree := by
  simp only [ofJson?, Option.bind_eq_bind, Option.bind_eq_some_iff] at h
  obtain ⟨j, -, hj⟩ := h
  split at hj
  · exact Json.keyed_nanFree_of_toTree? hj
  · cases hj

-- Whether a tree that is written as text says the same when it is read again.
def restored (t : Tree) : Bool := (ofJson? t.toJson).any (·.equal t)

-- Whether each double in a tree is restored.
def doublesRestored (t : Tree) : Bool :=
  t.all fun
    | .float x => (Tree.float x).restored
    | _ => true

theorem restored_iff {t : Tree} (h : t.depth ≤ Json.maxDepth) :
    t.restored ↔ ∃ u, (Json.ofTree t).toTree? = some u ∧ u.equal t := by
  rw [restored, ofJson?_toJson h, Option.any_eq_true]

-- A double is read from its own shortest digits, but not by rounding once; an infinity or a NaN is not
-- written at all.
theorem restored_float_iff {x : Binary64} :
    (Tree.float x).restored ↔
      x.isFinite ∧ (Json.literal x.isNegative (Decimal.shortest x)).toScaled?.any (·.equal x) := by
  have hread : (Json.ofTree (.float x)).toTree? =
      if x.isFinite then (Json.literal x.isNegative (Decimal.shortest x)).toScaled?.map Tree.float
      else some .null := by
    have hwritten : Json.ofTree (.float x) = (Json.numberOf? (.float x)).elim .null .number := rfl
    rw [hwritten, Json.numberOf?]
    cases x.isFinite <;> rfl
  rw [restored, ofJson?_toJson (Nat.zero_le _), hread]
  cases hfinite : x.isFinite with
  | false => simp [equal]
  | true => simp [Option.any_map, equal]

section
variable {items : List Tree} {fields : List (String × Tree)} {n : Nat}

theorem restored_seq_iff (h : (Tree.seq items).depth ≤ Json.maxDepth) :
    (Tree.seq items).restored ↔ ∀ t ∈ items, t.restored := by
  have hitems : ∀ t ∈ items, t.depth ≤ Json.maxDepth := depth_seq_le_iff.mp (h.trans (Nat.le_succ _))
  rw [restored_iff h, forall₂_congr fun t ht => restored_iff (hitems t ht)]
  simp only [Json.toTree?_seq_iff]
  constructor
  · rintro ⟨_, ⟨us, rfl, hus⟩, hequal⟩
    obtain ⟨ts, hts, hsame⟩ := equal_seq_iff.mp hequal
    obtain rfl : items = ts := Tree.seq.inj hts
    clear h hitems hts hequal
    induction hus with
    | nil => simp
    | cons hu _ ih =>
        cases hsame with
        | cons hsame hrest => exact List.forall_mem_cons.mpr ⟨⟨_, hu, hsame⟩, ih hrest⟩
  · intro hrestored
    obtain ⟨us, hus⟩ := Json.exists_forall₂ hrestored
    refine ⟨.seq us, ⟨us, rfl, hus.imp fun _ _ h => h.1⟩, equal_seq_iff.mpr ⟨items, rfl, ?_⟩⟩
    exact (hus.imp fun _ _ h => h.2).flip

theorem restored_map_iff (hkeys : (Fields.keys fields).Nodup) (h : (Tree.map fields).depth ≤ Json.maxDepth) :
    (Tree.map fields).restored ↔ ∀ field ∈ fields, field.2.restored := by
  have hfields : ∀ field ∈ fields, field.2.depth ≤ Json.maxDepth :=
    depth_map_le_iff.mp (h.trans (Nat.le_succ _))
  rw [restored_iff h, forall₂_congr fun field hfield => restored_iff (hfields field hfield)]
  simp only [Json.toTree?_map_iff hkeys]
  constructor
  · rintro ⟨_, ⟨entries, rfl, hentries⟩, hequal⟩ field hfield
    obtain ⟨others, hothers, -, hequal⟩ := equal_map_iff.mp hequal
    obtain rfl : fields = others := Tree.map.inj hothers
    obtain ⟨entry, hentry, hkey, htree⟩ := Json.exists_of_mem hentries.flip field hfield
    obtain ⟨other, hother, hsame⟩ := hequal entry hentry
    rw [hkey, Fields.lookup_of_mem hkeys hfield] at hother
    obtain rfl := Option.some.inj hother
    exact ⟨entry.2, htree, hsame⟩
  · intro hrestored
    have hentry : ∀ field ∈ fields, ∃ entry : String × Tree, (entry.1 = field.1 ∧
        (Json.ofTree field.2).toTree? = some entry.2) ∧ entry.2.equal field.2 := by
      intro field hfield
      obtain ⟨u, hu, hsame⟩ := hrestored field hfield
      exact ⟨(field.1, u), ⟨rfl, hu⟩, hsame⟩
    obtain ⟨entries, hentries⟩ := Json.exists_forall₂ hentry
    refine ⟨.map entries, ⟨entries, rfl, hentries.imp fun _ _ h => h.1⟩,
      equal_map_iff.mpr ⟨fields, rfl, hentries.length_eq.symm, fun entry hmem => ?_⟩⟩
    obtain ⟨field, hfield, ⟨hkey, -⟩, hsame⟩ := Json.exists_of_mem hentries entry hmem
    rw [hkey]
    exact ⟨field.2, Fields.lookup_of_mem hkeys hfield, hsame⟩

end

-- What is no number is stored as null, and `3e23` is read as its neighbour.
example : (Tree.float (.infinity false)).restored = false := by decide +kernel

example : (Tree.float ⟨0x44CFC3842BD1F072⟩).restored = false := by decide +kernel

-- Nothing but its doubles can keep a tree from being restored.
theorem restored_iff_doublesRestored {t : Tree} (hkeyed : t.keyed) (hdepth : t.depth ≤ Json.maxDepth) :
    t.restored ↔ t.doublesRestored := by
  have hscalar {t : Tree} (hd : t.depth ≤ Json.maxDepth) (htree : (Json.ofTree t).toTree? = some t)
      (hsame : t.equal t) (hall : t.doublesRestored) : t.restored ↔ t.doublesRestored :=
    iff_of_true ((restored_iff hd).mpr ⟨t, htree, hsame⟩) hall
  induction t with
  | null => exact hscalar hdepth rfl rfl rfl
  | bool b => exact hscalar hdepth rfl (by simp) rfl
  | int n => exact hscalar hdepth (Json.toTree?_int n) (by simp) rfl
  | float x => rfl
  | string s => exact hscalar hdepth rfl (by simp) rfl
  | seq items ih =>
      rw [restored_seq_iff hdepth, doublesRestored, all_seq_iff, and_iff_right rfl]
      have hitems := depth_seq_le_iff.mp (hdepth.trans (Nat.le_succ _))
      exact forall₂_congr fun t ht => ih t ht (keyed_seq_iff.mp hkeyed t ht) (hitems t ht)
  | map fields ih =>
      obtain ⟨hkeys, hvalues⟩ := keyed_map_iff.mp hkeyed
      rw [restored_map_iff hkeys hdepth, doublesRestored, all_map_iff, and_iff_right rfl]
      have hfields := depth_map_le_iff.mp (hdepth.trans (Nat.le_succ _))
      exact forall₂_congr fun field hfield =>
        ih field hfield (hvalues field hfield) (hfields field hfield)

end Tree
end ScraperTimeline
