import ScraperTimeline.Proofs.Axis.Declared
import ScraperTimeline.Proofs.Normal.Staged

/-!
The order of members that declare none. It is the index of the member as a number, unless the index is
written as a float: then it is the position.
-/
namespace ScraperTimeline
open ScraperTimeline.Normal Shape

/-! ### Members by their places -/

namespace Tree

theorem members_modify (f : Nat → Tree → Tree) (t : Tree) :
    (t.modify "members" (modifyItems f)).members = t.members.mapIdx f := by
  rw [members, members, field?_modify]
  cases t.field? "members" with
  | none => rfl
  | some members => cases members <;> rfl

theorem field?_default {t v : Tree} {key : String} (h : t.field? key = some v) (other : String) (value : Tree) :
    (t.modifyFields (Fields.default other value)).field? key = some v := by
  cases t with
  | map fields =>
      have hlookup : fields.lookup key = some v := h
      refine Fields.lookup_default.trans ?_
      split
      next heq => rw [← heq, hlookup, Option.getD_some]
      next => exact hlookup
  | _ => cases h

-- The fields of the member at a position of an axis.
def memberAt? (definition kind : String) (position : Nat) (t : Tree) : Option (List (String × Tree)) :=
  ((((t.field? "dataDefs").bind (field? definition)).bind (field? "axis")).bind (field? kind)).bind fun axis =>
    axis.members[position]?.bind fields?

end Tree

namespace Normal

section
variable {definition kind defaultGroup : String} {n : Nat} {t e : Tree} {member : List (String × Tree)}

theorem memberAt?_eachMember (f : Nat → List (String × Tree) → List (String × Tree)) (t : Tree) :
    (eachMember f t).memberAt? definition kind n = (t.memberAt? definition kind n).map (f n) := by
  simp [Tree.memberAt?, eachMember, Tree.members_modify, Option.bind_assoc, Option.bind_map, Option.map_bind]

theorem memberAt?_addFactAxis (h : t.memberAt? definition kind n = some member) :
    (addFactAxis t).memberAt? definition kind n = some member := by
  simp only [Tree.memberAt?, Option.bind_eq_some_iff] at h
  obtain ⟨axis, ⟨axes, ⟨body, ⟨definitions, hdefinitions, hbody⟩, haxes⟩, haxis⟩, hmember⟩ := h
  simp [Tree.memberAt?, addFactAxis, eachBody, modifyFields_withFactAxis, hdefinitions, hbody,
    Tree.field?_default haxes, Tree.field?_default haxis, Option.bind_eq_some_iff, hmember]

-- The passes that follow keep the definitions.
theorem memberAt?_normalize (hrun : normalize defaultGroup t = .ok e)
    (h : t.memberAt? definition kind n = some member) :
    e.memberAt? definition kind n =
      some (Fields.default "order" (orderOf n (Fields.default "index" (position n) member))
        (Fields.default "index" (position n) member)) := by
  have hsame : e.memberAt? definition kind n =
      (addOrder (addIndex (addFactAxis t))).memberAt? definition kind n := by
    rw [Tree.memberAt?, Tree.memberAt?, field?_dataDefs_of_normalize hrun]
  rw [hsame, addOrder, memberAt?_eachMember, addIndex, memberAt?_eachMember, memberAt?_addFactAxis h]
  rfl

theorem IsDefs.isMember {done : List Pass} (hdefs : IsDefs done t)
    (h : t.memberAt? definition kind n = some member) : IsMember done (.map member) := by
  simp only [Tree.memberAt?, Option.bind_eq_some_iff] at h
  obtain ⟨axis, ⟨axes, ⟨body, ⟨definitions, hdefinitions, hbody⟩, haxes⟩, haxis⟩, found, hfound, hmember⟩ := h
  obtain ⟨fields, rfl, -⟩ := Mapping.eq_map hdefs
  obtain ⟨bodies, rfl, hbodies, -⟩ := Mapping.eq_map (hdefs.isDefinitions (Fields.mem_of_lookup hdefinitions))
  obtain ⟨declared, hdeclared, hisAxes⟩ := (hbodies _ (Fields.mem_of_lookup hbody)).exists_axes
  obtain rfl : axes = .map declared := Option.some.inj (haxes.symm.trans hdeclared)
  have hisAxis := (hisAxes.kind_of_mem (Fields.mem_of_lookup haxis)).2
  have hisMember := hisAxis.isMember found (List.mem_of_getElem? hfound)
  cases found with
  | map fields =>
      obtain rfl : fields = member := Option.some.inj hmember
      exact hisMember
  | _ => cases hmember

/-! ### Order -/

theorem isWhole_index {done : List Pass} (h : IsMember done (.map member)) (n : Nat) :
    IsWhole ((member.lookup "index").getD (position n)) := by
  have hindex : Optional "index" IsPosition member := h.1.optional (by simp [Fields.keys]) (by simp)
  cases hfound : member.lookup "index" with
  | none => trivial
  | some index => exact (hindex index hfound).1

theorem number?_orderOf_iff {index : Tree} (hindex : member.lookup "index" = some index) (h : IsWhole index) :
    (orderOf n member).number? = index.number? ↔
      ∀ x, index = .float x → index.number? = (position n).number? := by
  rw [orderOf, hindex]
  cases index with
  | int w => simp [Tree.integer?]
  | float x => simp [Tree.integer?, eq_comm]
  | _ => exact h.elim

variable {base : Option String} {fs : Files} {defined effective : Contract} {policy : Policy}

-- In the effective tree a member of a tree that the defined contract accepts has its own index, or its position
-- if it declares none. If it declares no order, its order is the same number, unless the index is written as a
-- float: then the order is the position, whatever number the float is.
theorem order_eq_index_iff
    (hload : Pipeline.loadContracts (.below base) fs ["defined", "effective"] =
      .ok [("defined", defined), ("effective", effective)])
    (hvalid : defined.validate policy t = .ok ()) (hrun : normalize defaultGroup t = .ok e)
    (hmember : t.memberAt? definition kind n = some member) (hnone : member.lookup "order" = none) :
    ∃ member' index order, e.memberAt? definition kind n = some member' ∧
      member'.lookup "index" = some index ∧ index = (member.lookup "index").getD (position n) ∧
      member'.lookup "order" = some order ∧
      (∃ i o : ℤ, index.number? = some (i : ℚ) ∧ order.number? = some (o : ℚ)) ∧
      (order.number? = index.number? ↔ ∀ x, index = .float x → index.number? = (position n).number?) ∧
      ∀ x, index = .float x → order = position n := by
  obtain ⟨rfl, -⟩ := Pipeline.eq_of_loadContracts hload
  have hshape := ((Schema.Packaged.validate_contract_iff .defined _ policy t).mp hvalid).isMember hmember
  have hwhole := isWhole_index hshape n
  have hindex : (Fields.default "index" (position n) member).lookup "index" =
      some ((member.lookup "index").getD (position n)) := by
    rw [Fields.lookup_default, if_pos rfl]
  have horder : (Fields.default "index" (position n) member).lookup "order" = none := by
    rw [Fields.lookup_default, if_neg (by decide), hnone]
  refine ⟨_, _, orderOf n (Fields.default "index" (position n) member), memberAt?_normalize hrun hmember, ?_, rfl,
    ?_, ?_, number?_orderOf_iff hindex hwhole, fun x hx => ?_⟩
  · rw [Fields.lookup_default, if_neg (by decide), hindex]
  · rw [Fields.lookup_default, if_pos rfl, horder, Option.getD_none]
  · obtain ⟨i, hi⟩ := Tree.exists_number_of_isWhole hwhole
    obtain ⟨o, ho⟩ := Tree.exists_number_of_isWhole (isWhole_orderOf n (Fields.default "index" (position n) member))
    exact ⟨i, o, hi, ho⟩
  · rw [orderOf, hindex, hx]
    rfl

end

def unordered (index : Tree) : List (String × Tree) :=
  [("name", .string "open"), ("value", .int 2), ("index", index)]

theorem validate_unordered {index : Tree} (hindex : IsPosition index) :
    (Schema.Packaged.contract .defined "defined").validate .failFast (quotes (.map (unordered index))) = .ok () := by
  refine validate_quotes_of_isMember .defined "defined" ?_
  simp [unordered, IsMember, Mapping, Closed, Fields.keys, IsText, IsScalar, Schema.Packaged.Stage.done, hindex]

theorem order_eq_index_iff_five :
    ∃ defined effective e member' order,
      Pipeline.loadContracts (.below none) .empty ["defined", "effective"] =
        .ok [("defined", defined), ("effective", effective)] ∧
      defined.validate .failFast (quotes (.map (unordered (.int 5)))) = .ok () ∧
      normalize "load" (quotes (.map (unordered (.int 5)))) = .ok e ∧
      e.memberAt? "price" "fact" 0 = some member' ∧ member'.lookup "index" = some (.int 5) ∧
      member'.lookup "order" = some order ∧ order.number? = some 5 := by
  have hload := Pipeline.loadContracts_packaged none .empty
  have hvalid := validate_unordered (show IsPosition (.int 5) from ⟨trivial, by decide⟩)
  obtain ⟨e, hrun⟩ : ∃ e, normalize "load" (quotes (.map (unordered (.int 5)))) = .ok e := ⟨_, rfl⟩
  have hmember : (quotes (.map (unordered (.int 5)))).memberAt? "price" "fact" 0 = some (unordered (.int 5)) := rfl
  obtain ⟨member', _, order, hmember', hindex, rfl, horder, -, hiff, -⟩ :=
    order_eq_index_iff hload hvalid hrun hmember rfl
  refine ⟨_, _, e, member', order, hload, hvalid, hrun, hmember', hindex, horder, ?_⟩
  exact (hiff.mpr fun x hx => nomatch hx).trans rfl

-- The contract accepts the index 2.0 of the first member, and the order is 0.
theorem order_not_float_index :
    ∃ defined effective e member',
      Pipeline.loadContracts (.below none) .empty ["defined", "effective"] =
        .ok [("defined", defined), ("effective", effective)] ∧
      defined.validate .failFast (quotes (.map (unordered (.float ⟨0x4000000000000000⟩)))) = .ok () ∧
      normalize "load" (quotes (.map (unordered (.float ⟨0x4000000000000000⟩)))) = .ok e ∧
      (quotes (.map (unordered (.float ⟨0x4000000000000000⟩)))).memberAt? "price" "fact" 0 =
        some (unordered (.float ⟨0x4000000000000000⟩)) ∧
      (unordered (.float ⟨0x4000000000000000⟩)).lookup "order" = none ∧
      e.memberAt? "price" "fact" 0 = some member' ∧
      (member'.lookup "index").bind Tree.number? = some 2 ∧
      (member'.lookup "order").bind Tree.number? = some 0 := by
  have hindex : IsPosition (.float ⟨0x4000000000000000⟩) := ⟨⟨by decide, by decide⟩, by decide +kernel⟩
  refine ⟨_, _, _, _, Pipeline.loadContracts_packaged none .empty, validate_unordered hindex, rfl, rfl, rfl, rfl,
    ?_, ?_⟩
  · decide +kernel
  · decide +kernel

end Normal
end ScraperTimeline
