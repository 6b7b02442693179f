import ScraperTimeline.Proofs.Tree.Basic
import ScraperTimeline.Proofs.Tree.Fields
import ScraperTimeline.Yaml.Reader

/-!
The shape of trees that are read from YAML: no key occurs twice in a mapping, and collections are nested
only as deep as aliases are followed.
-/
namespace ScraperTimeline.Yaml

open Node

-- A tree without parts.
def Leaf (t : Tree) : Prop := t.depth = 0 ∧ t.keyed

theorem leaf_of_intToTree? {n : Int} {t : Tree} (h : intToTree? n = some t) : Leaf t := by
  unfold intToTree? at h
  split at h
  · obtain rfl := Option.some.inj h
    exact ⟨rfl, rfl⟩
  · split at h
    · obtain rfl := Option.some.inj h
      exact ⟨rfl, rfl⟩
    · cases h

theorem leaf_of_scalarTree? {p : Properties} {text : List Char} {plain : Bool} {t : Tree}
    (h : scalarTree? p text plain = some t) : Leaf t := by
  unfold scalarTree? at h
  split at h
  next tag =>
    split at h
    · cases h
    · unfold taggedScalar? at h
      split at h
      · obtain ⟨b, -, rfl⟩ := Option.map_eq_some_iff.mp h
        exact ⟨rfl, rfl⟩
      · split at h
        · obtain ⟨n, -, hn⟩ := Option.bind_eq_some_iff.mp h
          exact leaf_of_intToTree? hn
        · split at h
          · obtain ⟨x, -, rfl⟩ := Option.map_eq_some_iff.mp h
            exact ⟨rfl, rfl⟩
          · split at h
            · split at h
              · obtain rfl := Option.some.inj h
                exact ⟨rfl, rfl⟩
              · cases h
            · obtain rfl := Option.some.inj h
              exact ⟨rfl, rfl⟩
  next =>
    split at h
    · cases hscalar : Scalar.ofPlain text with
      | int n =>
          rw [hscalar] at h
          exact leaf_of_intToTree? h
      | _ =>
          rw [hscalar] at h
          obtain rfl := Option.some.inj h
          exact ⟨rfl, rfl⟩
    · obtain rfl := Option.some.inj h
      exact ⟨rfl, rfl⟩

theorem exists_of_mem_itemTrees? {items : List Node} {ts : List Tree} (h : itemTrees? items = some ts) :
    ∀ t ∈ ts, ∃ n ∈ items, n.toTree? = some t := by
  induction items generalizing ts with
  | nil =>
      obtain rfl := Option.some.inj h
      simp
  | cons n rest ih =>
      simp only [itemTrees?, Option.bind_eq_bind, Option.bind_eq_some_iff] at h
      obtain ⟨t, ht, ts, hts, h⟩ := h
      obtain rfl := Option.some.inj h
      refine List.forall_mem_cons.mpr ⟨⟨n, List.mem_cons_self, ht⟩, fun u hu => ?_⟩
      obtain ⟨m, hm, hu⟩ := ih hts u hu
      exact ⟨m, List.mem_cons_of_mem _ hm, hu⟩

theorem exists_of_mem_fieldTrees? {fields : List (Node × Node)} {entries : List (String × Tree)}
    (h : fieldTrees? fields = some entries) :
    ∀ entry ∈ entries, ∃ field ∈ fields, field.2.toTree? = some entry.2 := by
  induction fields generalizing entries with
  | nil =>
      obtain rfl := Option.some.inj h
      simp
  | cons field rest ih =>
      obtain ⟨k, v⟩ := field
      simp only [fieldTrees?, Option.bind_eq_bind, Option.bind_eq_some_iff] at h
      obtain ⟨_, -, key, -, t, ht, entries, hentries, h⟩ := h
      obtain rfl := Option.some.inj h
      refine List.forall_mem_cons.mpr ⟨⟨(k, v), List.mem_cons_self, ht⟩, fun u hu => ?_⟩
      obtain ⟨m, hm, hu⟩ := ih hentries u hu
      exact ⟨m, List.mem_cons_of_mem _ hm, hu⟩

/-! ### Nodes without aliases -/

-- What comes of a computation for one of the values.
theorem exists_of_mem_mapM {α β : Type} {f : α → Following β} {as : List α} {bs : List β} {left left' : Nat}
    (h : (as.mapM f).run left = some (bs, left')) :
    ∀ b ∈ bs, ∃ a ∈ as, ∃ before after, (f a).run before = some (b, after) := by
  induction as generalizing bs left left' with
  | nil =>
      obtain ⟨rfl, -⟩ : [] = bs ∧ left = left' := by simpa [StateT.run_pure] using h
      simp
  | cons a as ih =>
      simp only [List.mapM_cons, StateT.run_bind, Option.bind_eq_bind, Option.bind_eq_some_iff] at h
      obtain ⟨⟨b, middle⟩, hb, ⟨⟨cs, last⟩, hcs, h⟩⟩ := h
      obtain ⟨rfl, -⟩ : b :: cs = bs ∧ last = left' := by simpa [StateT.run_pure] using h
      refine List.forall_mem_cons.mpr ⟨⟨a, List.mem_cons_self, left, middle, hb⟩, fun c hc => ?_⟩
      obtain ⟨a, ha, hrun⟩ := ih hcs c hc
      exact ⟨a, List.mem_cons_of_mem _ ha, hrun⟩

theorem leaf_of_toTree?_scalar {p : Properties} {text : List Char} {plain : Bool} {expanded : Node}
    {left left' : Nat} {t : Tree}
    (h : (pure (.scalar p text plain) : Following Node).run left = some (expanded, left'))
    (ht : expanded.toTree? = some t) : Leaf t := by
  obtain ⟨rfl, -⟩ : Node.scalar p text plain = expanded ∧ left = left' := by
    simpa [StateT.run_pure] using h
  exact leaf_of_scalarTree? ht

theorem nested_seq {p : Properties} {nodes : List Node} {depth : Nat} {t : Tree}
    (h : ∀ n ∈ nodes, ∀ t, n.toTree? = some t → t.depth ≤ depth ∧ t.keyed)
    (ht : (Node.seq p nodes).toTree? = some t) : t.depth ≤ depth + 1 ∧ t.keyed := by
  rw [toTree?] at ht
  split at ht
  · cases ht
  · obtain ⟨ts, hts, rfl⟩ := Option.map_eq_some_iff.mp ht
    rw [Tree.depth_seq_le_iff, Tree.keyed_seq_iff, ← forall₂_and]
    intro t ht
    obtain ⟨n, hn, htree⟩ := exists_of_mem_itemTrees? hts t ht
    exact h n hn t htree

theorem nested_map {p : Properties} {pairs : List (Node × Node)} {depth : Nat} {t : Tree}
    (h : ∀ pair ∈ pairs, ∀ t, pair.2.toTree? = some t → t.depth ≤ depth ∧ t.keyed)
    (ht : (Node.map p pairs).toTree? = some t) : t.depth ≤ depth + 1 ∧ t.keyed := by
  rw [toTree?] at ht
  split at ht
  · cases ht
  · obtain ⟨entries, hentries, rfl⟩ := Option.map_eq_some_iff.mp ht
    rw [Tree.depth_map_le_iff, Tree.keyed_map_iff, and_left_comm, ← forall₂_and]
    refine ⟨Fields.nodup_keys_ofList entries, fun field hfield => ?_⟩
    obtain ⟨pair, hpair, htree⟩ := exists_of_mem_fieldTrees? hentries field (Fields.mem_of_mem_ofList hfield)
    exact h pair hpair _ htree

-- The collections of an expanded node are nested only so deep.
theorem nested_of_expand {anchors : List (Nat × Node)} {depth left left' : Nat} {n expanded : Node}
    {t : Tree} (h : (expand anchors depth n).run left = some (expanded, left'))
    (ht : expanded.toTree? = some t) : t.depth ≤ depth ∧ t.keyed := by
  induction depth generalizing n expanded left left' t with
  | zero =>
      simp only [expand, StateT.run_bind, Option.bind_eq_bind, Option.bind_eq_some_iff] at h
      obtain ⟨⟨m, middle⟩, -, h⟩ := h
      cases m with
      | scalar p text plain =>
          obtain ⟨hdepth, hkeyed⟩ := leaf_of_toTree?_scalar h ht
          exact ⟨by omega, hkeyed⟩
      | _ => cases h
  | succ depth ih =>
      simp only [expand, StateT.run_bind, Option.bind_eq_bind, Option.bind_eq_some_iff] at h
      obtain ⟨⟨m, middle⟩, -, h⟩ := h
      cases m with
      | scalar p text plain =>
          obtain ⟨hdepth, hkeyed⟩ := leaf_of_toTree?_scalar h ht
          exact ⟨by omega, hkeyed⟩
      | «alias» anchor => cases h
      | seq p items =>
          simp only [StateT.run_bind, Option.bind_eq_bind, Option.bind_eq_some_iff] at h
          obtain ⟨⟨items', last⟩, hitems, h⟩ := h
          obtain ⟨rfl, -⟩ : Node.seq p items' = expanded ∧ last = left' := by
            simpa [StateT.run_pure] using h
          refine nested_seq (fun m hm t htree => ?_) ht
          obtain ⟨_, -, _, _, hrun⟩ := exists_of_mem_mapM hitems m hm
          exact ih hrun htree
      | map p fields =>
          simp only [StateT.run_bind, Option.bind_eq_bind, Option.bind_eq_some_iff] at h
          obtain ⟨⟨fields', last⟩, hfields, h⟩ := h
          obtain ⟨rfl, -⟩ : Node.map p fields' = expanded ∧ last = left' := by
            simpa [StateT.run_pure] using h
          refine nested_map (fun pair hpair t htree => ?_) ht
          obtain ⟨_, -, _, _, hrun⟩ := exists_of_mem_mapM hfields pair hpair
          simp only [StateT.run_bind, Option.bind_eq_bind, Option.bind_eq_some_iff] at hrun
          obtain ⟨⟨k, _⟩, -, ⟨v, _⟩, hv, hrun⟩ := hrun
          obtain rfl : (k, v) = pair := by simpa [StateT.run_pure] using congrArg (·.map Prod.fst) hrun
          exact ih hv htree

theorem nested_of_ofYaml? {text : String} {t : Tree} (h : Tree.ofYaml? text = some t) :
    t.depth ≤ maxDepth ∧ t.keyed := by
  simp only [Tree.ofYaml?, Option.bind_eq_bind, Option.bind_eq_some_iff] at h
  obtain ⟨root, -, h⟩ := h
  cases root with
  | none =>
      obtain rfl := Option.some.inj h
      exact ⟨Nat.zero_le _, rfl⟩
  | some n =>
      obtain ⟨expanded, hexpanded, ht⟩ := Option.bind_eq_some_iff.mp h
      obtain ⟨⟨_, _⟩, hrun, rfl⟩ := Option.map_eq_some_iff.mp hexpanded
      exact nested_of_expand hrun ht

end ScraperTimeline.Yaml
