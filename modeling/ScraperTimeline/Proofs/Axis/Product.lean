import ScraperTimeline.Proofs.Axis.Declared
import Mathlib.Algebra.BigOperators.Group.List.Basic

/-!
The members of a version as a product. The place of a member, written with the sizes of the sets as its
radices, has the places of its axes as its digits: the set of the last kind is the lowest one.
-/
namespace ScraperTimeline
namespace AxisSets

/-! ### Distinct elements -/

-- The elements of a list, each one once, in the order in which they come there first.
structure FirstAppearances {α : Type} [DecidableEq α] (l found : List α) : Prop where
  mem_iff : ∀ a, a ∈ found ↔ a ∈ l
  ordered : found.Pairwise fun a b => l.idxOf a < l.idxOf b

theorem FirstAppearances.nodup {α : Type} [DecidableEq α] {l found : List α} (h : FirstAppearances l found) :
    found.Nodup :=
  h.ordered.imp fun hlt heq => (heq ▸ hlt).false

theorem firstAppearances_distinct {α : Type} [DecidableEq α] (l : List α) : FirstAppearances l (distinct l) := by
  refine ⟨fun _ => mem_distinct, ?_⟩
  induction l with
  | nil => exact .nil
  | cons a rest ih =>
      have hne {b : α} (hb : b ∈ (distinct rest).filter (· ≠ a)) : a ≠ b :=
        fun heq => by simp [heq] at hb
      refine .cons (fun b hb => ?_) ?_
      · rw [List.idxOf_cons_self, List.idxOf_cons_ne rest (hne hb)]
        exact Nat.succ_pos _
      · refine (ih.filter _).imp_of_mem fun hb hc hlt => ?_
        rw [List.idxOf_cons_ne rest (hne hb), List.idxOf_cons_ne rest (hne hc)]
        exact Nat.succ_lt_succ hlt

/-! ### Choices -/

section
variable {α : Type} {lists : List (List α)}

-- How many ways there are to take one element of each list.
def ways (lists : List (List α)) : ℕ := (lists.map List.length).prod

theorem mem_choices {choice : List α} : choice ∈ choices lists ↔ List.Forall₂ (· ∈ ·) choice lists := by
  induction lists generalizing choice with
  | nil => simp [choices]
  | cons options rest ih =>
      rw [choices, List.mem_flatMap, List.forall₂_cons_right_iff]
      constructor
      · rintro ⟨a, ha, hchoice⟩
        obtain ⟨tail, htail, rfl⟩ := List.mem_map.mp hchoice
        exact ⟨a, tail, ha, ih.mp htail, rfl⟩
      · rintro ⟨a, tail, ha, htail, rfl⟩
        exact ⟨a, ha, List.mem_map.mpr ⟨tail, ih.mpr htail, rfl⟩⟩

theorem length_choices (lists : List (List α)) : (choices lists).length = ways lists := by
  induction lists with
  | nil => rfl
  | cons options rest ih =>
      rw [choices, List.length_flatMap]
      simp [ih, ways]

theorem nodup_choices (h : ∀ options ∈ lists, options.Nodup) : (choices lists).Nodup := by
  induction lists with
  | nil => simp [choices]
  | cons options rest ih =>
      have hrest := ih fun l hl => h l (List.mem_cons_of_mem _ hl)
      refine List.nodup_flatMap.mpr ⟨fun a _ => hrest.map (List.cons_injective), ?_⟩
      refine (h options List.mem_cons_self).imp fun {a b} hne => ?_
      -- choices that start with different elements
      rintro choice ha hb
      obtain ⟨_, -, rfl⟩ := List.mem_map.mp ha
      obtain ⟨_, -, heq⟩ := List.mem_map.mp hb
      exact hne (List.cons.inj heq).1.symm

-- Blocks of one size, one for each element of a list.
theorem getElem?_flatMap_of_length {β : Type} {f : α → List β} {size : ℕ} (hsize : ∀ a, (f a).length = size)
    (l : List α) (i : ℕ) : (l.flatMap f)[i]? = l[i / size]?.bind fun a => (f a)[i % size]? := by
  induction l generalizing i with
  | nil => simp
  | cons a rest ih =>
      rw [List.flatMap_cons]
      rcases lt_or_ge i size with hlt | hge
      · rw [List.getElem?_append_left (by rwa [hsize]), Nat.div_eq_of_lt hlt, Nat.mod_eq_of_lt hlt]
        rfl
      · rw [List.getElem?_append_right (by rwa [hsize]), hsize, ih]
        rcases Nat.eq_zero_or_pos size with rfl | hpos
        · have hnil (a : α) : f a = [] := List.eq_nil_of_length_eq_zero (hsize a)
          simp [hnil]
        · rw [Nat.div_eq_sub_div hpos hge, List.getElem?_cons_succ, Nat.mod_eq_sub_mod hge]

theorem getElem?_choices_cons {options choice : List α} {i : ℕ} :
    (choices (options :: lists))[i]? = some choice ↔
      ∃ a tail, options[i / ways lists]? = some a ∧ (choices lists)[i % ways lists]? = some tail ∧
        a :: tail = choice := by
  rw [choices, getElem?_flatMap_of_length fun a => by rw [List.length_map, length_choices]]
  simp [Option.bind_eq_some_iff]

-- The lists before one of them do not count for the place of its element, nor does what comes after it.
theorem getElem?_of_choices {earlier later : List (List α)} {options choice : List α} {i : ℕ}
    (h : (choices (earlier ++ options :: later))[i]? = some choice) :
    ∃ a, choice[earlier.length]? = some a ∧ options[i / ways later % options.length]? = some a := by
  induction earlier generalizing i choice with
  | nil =>
      obtain ⟨a, tail, ha, -, rfl⟩ := getElem?_choices_cons.mp h
      have hlt := (List.getElem?_eq_some_iff.mp ha).1
      exact ⟨a, rfl, by rwa [Nat.mod_eq_of_lt hlt]⟩
  | cons first earlier ih =>
      rw [List.cons_append] at h
      obtain ⟨-, tail, -, htail, rfl⟩ := getElem?_choices_cons.mp h
      obtain ⟨a, hat, ha⟩ := ih htail
      refine ⟨a, hat, ?_⟩
      have hways : ways (earlier ++ options :: later) = ways later * (options.length * ways earlier) := by
        simp only [ways, List.map_append, List.map_cons, List.prod_append, List.prod_cons]
        ring
      rwa [hways, Nat.mod_mul_right_div_self, Nat.mod_mul_right_mod] at ha

end

/-! ### Members -/

-- The members of the sets: one axis of each kind, at its place, and every combination once.
structure Product (sets : AxisSets) (members : List Member) : Prop where
  size : members.length = if sets = [] then 0 else ways (sets.map (·.2))
  kinds : ∀ m ∈ members, m.map (·.kind) = sets.map (·.1)
  place : ∀ i m, members[i]? = some m → ∀ earlier kind axes later, sets = earlier ++ (kind, axes) :: later →
    ∃ a, m.axis? kind = some a ∧ axes[i / ways (later.map (·.2)) % axes.length]? = some a
  once : members.Nodup
  complete : ∀ m, m ∈ members ↔ sets ≠ [] ∧ List.Forall₂ (fun a set => a ∈ set.2) m sets

section
variable {sets : AxisSets}

theorem kinds_of_taken {m : Member} (hkind : ∀ set ∈ sets, ∀ a ∈ set.2, a.kind = set.1)
    (h : List.Forall₂ (fun a set => a ∈ set.2) m sets) : m.map (·.kind) = sets.map (·.1) := by
  induction h with
  | nil => rfl
  | @cons a set m sets ha _ ih =>
      rw [List.map_cons, List.map_cons, hkind set List.mem_cons_self a ha,
        ih fun set hset => hkind set (List.mem_cons_of_mem _ hset)]

-- A member that has one axis of each kind finds it by its kind.
theorem axis?_of_getElem? {m : Member} {i : ℕ} {a : Axis} (hkinds : (m.map (·.kind)).Nodup)
    (ha : m[i]? = some a) : m.axis? a.kind = some a := by
  obtain ⟨before, after, rfl⟩ := List.append_of_mem (List.mem_of_getElem? ha)
  refine List.find?_eq_some_iff_append.mpr ⟨by simp, before, after, rfl, fun b hb => ?_⟩
  rw [List.map_append, List.map_cons, List.nodup_append] at hkinds
  simpa using hkinds.2.2 b.kind (List.mem_map_of_mem hb) a.kind List.mem_cons_self

theorem product_members (hkinds : (sets.map (·.1)).Nodup) (hkind : ∀ set ∈ sets, ∀ a ∈ set.2, a.kind = set.1)
    (hdistinct : ∀ set ∈ sets, set.2.Nodup) : sets.Product sets.members := by
  rcases eq_or_ne sets [] with rfl | hne
  · exact ⟨rfl, by simp [members], by simp [members], by simp [members], by simp [members]⟩
  have hmembers : sets.members = choices (sets.map (·.2)) := by simp [members, hne]
  have hmem (m : Member) : m ∈ sets.members ↔ List.Forall₂ (fun a set => a ∈ set.2) m sets := by
    rw [hmembers, mem_choices, List.forall₂_map_right_iff]
  have hof (m : Member) (hm : m ∈ sets.members) : m.map (·.kind) = sets.map (·.1) :=
    kinds_of_taken hkind ((hmem m).mp hm)
  refine ⟨by simp [hmembers, hne, length_choices], hof, fun i m hm earlier kind axes later heq => ?_, ?_,
    fun m => by simp [hmem, hne]⟩
  · have hnodup : (m.map (·.kind)).Nodup := hof m (List.mem_of_getElem? hm) ▸ hkinds
    rw [hmembers, heq, List.map_append, List.map_cons] at hm
    obtain ⟨a, hat, ha⟩ := getElem?_of_choices hm
    obtain rfl : a.kind = kind := hkind (kind, axes) (by simp [heq]) a (List.mem_of_getElem? ha)
    exact ⟨a, axis?_of_getElem? hnodup hat, ha⟩
  · rw [hmembers]
    refine nodup_choices fun axes haxes => ?_
    obtain ⟨set, hset, rfl⟩ := List.mem_map.mp haxes
    exact hdistinct set hset

end

end AxisSets

namespace Version
variable {v : Version} {sets : AxisSets}

-- The sets of a version: a set for each kind that is a key, with the distinct axes that it declares.
structure Listed (v : Version) (sets : AxisSets) : Prop where
  known : ∀ key ∈ v.axisKeys, ∃ kind : AxisKind, kind.key = key
  kinds : sets.map (·.1) = AxisKind.all.filter fun kind => kind.key ∈ v.axisKeys
  axes : ∀ set ∈ sets,
    AxisSets.FirstAppearances ((v.declarations set.1).map (Axis.ofDeclaration set.1)) set.2

theorem listed_of_ofVersion (h : AxisSets.ofVersion v = .ok sets) : v.Listed sets := by
  obtain ⟨declared, haxis, hknown, rfl⟩ := AxisSets.ofVersion_eq_ok_iff.mp h
  have hkeys : v.axisKeys = Fields.keys declared := by simp [axisKeys, haxis, Tree.fields?]
  refine ⟨hkeys ▸ hknown, ?_, fun set hset => ?_⟩
  · rw [AxisSets.kinds_ofFields, hkeys]
    refine List.filter_congr fun kind _ => ?_
    rw [Bool.eq_iff_iff, decide_eq_true_iff, ← Fields.has_iff]
    rfl
  · obtain ⟨t, hfound, hset⟩ := AxisSets.mem_ofFields.mp hset
    rw [declarations_eq haxis, hfound, ← hset]
    exact AxisSets.firstAppearances_distinct _

-- The members of a version are the product of the axes that it declares.
theorem members_product (h : AxisSets.ofVersion v = .ok sets) :
    v.Listed sets ∧ sets.Product sets.members ∧ v.members = .ok sets.members := by
  have hlisted := listed_of_ofVersion h
  refine ⟨hlisted, AxisSets.product_members ?_ (fun set hset a ha => ?_) fun set hset => ?_, ?_⟩
  · rw [hlisted.kinds]
    exact List.Nodup.filter _ (by decide)
  · obtain ⟨member, -, rfl⟩ := List.mem_map.mp (((hlisted.axes set hset).mem_iff a).mp ha)
    rfl
  · exact (hlisted.axes set hset).nodup
  · rw [members, h]
    rfl

/-! ### A grid -/

-- The rows come first, and one of the facts is declared again after another.
def grid : Version :=
  let member (name : String) := Tree.map [("name", .string name), ("value", .string name)]
  .ofBody "grid" ⟨4, 0⟩ ⟨9, 0⟩ (.map [("axis", .map [
    ("row", .map [("members", .seq [member "r1", member "r2", member "r3"])]),
    ("fact", .map [("members", .seq [member "open", member "close", member "open"])])])])

theorem members_product_grid :
    ∃ sets, AxisSets.ofVersion grid = .ok sets ∧ grid.Listed sets ∧ sets.Product sets.members ∧
      grid.members = .ok sets.members ∧ sets.map (·.2.length) = [2, 3] ∧ sets.members.length = 6 ∧
      (sets.members[4]?.bind fun m => m.axis? .fact).bind (·.name) = some "close" ∧
      (sets.members[4]?.bind fun m => m.axis? .row).bind (·.name) = some "r2" := by
  obtain ⟨sets, hsets⟩ : ∃ sets, AxisSets.ofVersion grid = .ok sets := ⟨_, rfl⟩
  obtain ⟨hlisted, hproduct, hmembers⟩ := members_product hsets
  refine ⟨sets, hsets, hlisted, hproduct, hmembers, ?_⟩
  cases hsets
  decide +kernel

end Version
end ScraperTimeline
