import ScraperTimeline.Json.Value
import ScraperTimeline.Proofs.Decimal.Exact
import ScraperTimeline.Proofs.Json.Sorted

/-!
Trees and JSON values. Text gives the same tree whether it is read at once or by way of a value, and a tree of
finite doubles is the same as a value.
-/
namespace ScraperTimeline

/-! ### Reading -/

namespace Json
open Text

-- What `f` does to the values of entries.
def onValues {α β : Type} (f : α → β) (entries : List (String × α)) : List (String × β) :=
  entries.map fun entry => (entry.1, f entry.2)

@[simp] theorem onValues_nil {α β : Type} (f : α → β) : onValues f [] = [] := rfl

@[simp] theorem onValues_cons {α β : Type} (f : α → β) (key : String) (value : α) (rest : List (String × α)) :
    onValues f ((key, value) :: rest) = (key, f value) :: onValues f rest := rfl

theorem onValues_foldl_insertSorted {α β : Type} (f : α → β) (entries before : List (String × α)) :
    onValues f (entries.foldl (fun sorted (key, value) => insertSorted key value sorted) before) =
      (onValues f entries).foldl (fun sorted (key, value) => insertSorted key value sorted) (onValues f before) := by
  induction entries generalizing before with
  | nil => rfl
  | cons entry rest ih =>
      rw [List.foldl_cons, ih]
      exact congrArg (List.foldl _ · _) (map_insertSorted f)

theorem onValues_put {α β : Type} (f : α → β) (key : String) (value : α) (fields : List (String × α)) :
    onValues f (Fields.put key value fields) = Fields.put key (f value) (onValues f fields) := by
  induction fields with
  | nil => rfl
  | cons field rest ih =>
      simp only [onValues, List.map_cons, Fields.put] at ih ⊢
      split
      · rfl
      · rw [List.map_cons, ih]

theorem onValues_ofList {α β : Type} (f : α → β) (entries : List (String × α)) :
    onValues f (Fields.ofList entries) = Fields.ofList (onValues f entries) := by
  have hfold (before : List (String × α)) :
      onValues f (entries.foldl (fun fields (key, value) => Fields.put key value fields) before) =
        (onValues f entries).foldl (fun fields (key, value) => Fields.put key value fields) (onValues f before) := by
    induction entries generalizing before with
    | nil => rfl
    | cons entry rest ih =>
        rw [List.foldl_cons, ih]
        exact congrArg (List.foldl _ · _) (onValues_put f ..)
  exact hfold []

/-! ### Numbers -/

section
variable {n : Nat}

theorem word?_negative (h : n ≤ 0x8000000000000000) : Tree.word? (-(n : Int)) = some (Int64.ofInt (-n)) :=
  if_pos (by omega)

theorem word?_negative_eq_none (h : ¬ n ≤ 0x8000000000000000) : Tree.word? (-(n : Int)) = none :=
  if_neg (by omega)

theorem word?_natural (h : n < 0x8000000000000000) : Tree.word? (n : Int) = some (Int64.ofNat n) := by
  rw [← Int64.ofInt_eq_ofNat]
  exact if_pos (by omega)

theorem word?_natural_eq_none (h : ¬ n < 0x8000000000000000) : Tree.word? (n : Int) = none :=
  if_neg (by omega)

theorem ofValue_natural (h : n < 0x10000000000000000) : Tree.ofValue (.natural (UInt64.ofNat n)) =
    if n < 0x8000000000000000 then .int (Int64.ofNat n) else .float (.ofNat n) := by
  rw [Tree.ofValue, UInt64.toNat_ofNat_of_lt' h, UInt64.toInt64_ofNat']

end

theorem toValue?_number (n : Number) : n.toValue?.map Tree.ofValue = n.toTree? := by
  cases n with
  | real literal =>
      rw [Number.toValue?, Number.toTree?, Option.map_map]
      rfl
  | whole negative digits =>
      have hfloat (l : DecimalLiteral) : (l.toScaled?.map Value.float).map Tree.ofValue = l.toScaled?.map Tree.float := by
        rw [Option.map_map]
        rfl
      rw [Number.toValue?, Number.toTree?]
      generalize hn : (digitsFrom? 10 0 digits).getD 0 = n
      cases negative with
      | true =>
          by_cases hzero : n = 0
          · simp [hzero, hfloat]
          · by_cases hle : n ≤ 0x8000000000000000
            · simp [hzero, hle, word?_negative hle, Nat.pos_of_ne_zero hzero, Tree.ofValue]
            · simp [hzero, hle, word?_negative_eq_none hle, hfloat]
      | false =>
          by_cases hint : n < 0x8000000000000000
          · have hword : n < 0x10000000000000000 := by omega
            simp [hint, hword, word?_natural hint, ofValue_natural hword]
          · by_cases hword : n < 0x10000000000000000
            · have hdigits : digitsFrom? 10 0 digits = some n := by
                cases h : digitsFrom? 10 0 digits with
                | none =>
                    rw [h, Option.getD_none] at hn
                    omega
                | some m => simpa [h] using hn
              simp [hint, hword, word?_natural_eq_none hint, ofValue_natural hword,
                DecimalLiteral.toScaled?_word hdigits hword]
            · simp [hword, word?_natural_eq_none hint, hfloat]

/-! ### Documents -/

theorem sorted_of_number {n : Number} {t : Tree} (h : n.toTree? = some t) : t.sorted = t := by
  obtain ⟨m, rfl⟩ | ⟨l, x, -, rfl⟩ := number_cases h <;> rfl

-- Two readings of one thing agree if they fail together.
theorem map_eq_map_iff {α β γ : Type} {f : α → γ} {g : β → γ} {x : Option α} {y : Option β} :
    x.map f = y.map g ↔ x = none ∧ y = none ∨ ∃ a b, x = some a ∧ y = some b ∧ f a = g b := by
  cases x <;> cases y <;> simp

theorem itemsToValues?_eq {items : List Json}
    (h : ∀ j ∈ items, j.toValue?.map Tree.ofValue = j.toTree?.map Tree.sorted) :
    (itemsToValues? items).map (List.map Tree.ofValue) = (itemsToTrees? items).map (List.map Tree.sorted) := by
  induction items with
  | nil => rfl
  | cons j rest ih =>
      obtain ⟨hj, hrest⟩ := List.forall_mem_cons.mp h
      rw [itemsToValues?, itemsToTrees?]
      rcases map_eq_map_iff.mp hj with ⟨hv, ht⟩ | ⟨v, t, hv, ht, hvt⟩
      · simp [hv, ht]
      · rcases map_eq_map_iff.mp (ih hrest) with ⟨hvs, hts⟩ | ⟨vs, ts, hvs, hts, heq⟩
        · simp [hv, ht, hvs, hts]
        · simp [hv, ht, hvs, hts, hvt, heq]

theorem fieldsToValues?_eq {fields : List (String × Json)} (read : List (String × Value))
    (h : ∀ field ∈ fields, field.2.toValue?.map Tree.ofValue = field.2.toTree?.map Tree.sorted) :
    (fieldsToValues? fields read).map (onValues Tree.ofValue) = (fieldsToTrees? fields).map fun entries =>
      (onValues Tree.sorted entries).foldl (fun sorted (key, value) => insertSorted key value sorted)
        (onValues Tree.ofValue read) := by
  induction fields generalizing read with
  | nil => rfl
  | cons field rest ih =>
      obtain ⟨key, j⟩ := field
      obtain ⟨hj, hrest⟩ := List.forall_mem_cons.mp h
      dsimp only at hj
      rw [fieldsToValues?, fieldsToTrees?]
      rcases map_eq_map_iff.mp hj with ⟨hv, ht⟩ | ⟨v, t, hv, ht, hvt⟩
      · rw [hv, ht]
        rfl
      · rcases map_eq_map_iff.mp (ih (insertSorted key v read) hrest) with ⟨hvs, hts⟩ | ⟨vs, ts, hvs, hts, heq⟩
        · simp [hv, ht, hvs, hts]
        · have hread : onValues Tree.ofValue (insertSorted key v read) =
              insertSorted key t.sorted (onValues Tree.ofValue read) := by
            rw [← hvt]
            exact map_insertSorted Tree.ofValue
          rw [hread] at heq
          simpa [hv, ht, hvs, hts] using heq

theorem ofValue_array (items : List Value) : Tree.ofValue (.array items) = .seq (items.map Tree.ofValue) := by
  rw [Tree.ofValue]
  refine congrArg Tree.seq ?_
  induction items with
  | nil => rfl
  | cons v rest ih => rw [Tree.ofValues, ih, List.map_cons]

theorem ofValue_object (fields : List (String × Value)) :
    Tree.ofValue (.object fields) = .map (onValues Tree.ofValue fields) := by
  rw [Tree.ofValue]
  refine congrArg Tree.map ?_
  induction fields with
  | nil => rfl
  | cons field rest ih =>
      rw [Tree.ofValueFields, ih]
      rfl

-- A value has its keys sorted, and is otherwise what is read at once.
theorem toValue?_eq (j : Json) : j.toValue?.map Tree.ofValue = j.toTree?.map Tree.sorted := by
  induction j using induct with
  | null => rfl
  | bool b => rfl
  | number n =>
      have hsorted : n.toTree?.map Tree.sorted = n.toTree? := by
        cases ht : n.toTree? with
        | none => rfl
        | some t => rw [Option.map_some, sorted_of_number ht]
      rw [toValue?, toTree?, toValue?_number, hsorted]
  | string s => rfl
  | halfString => rfl
  | array items ih =>
      rw [toValue?, toTree?, Option.map_map, Option.map_map]
      have hseq := congrArg (Option.map Tree.seq) (itemsToValues?_eq ih)
      simpa [Function.comp_def, ofValue_array, Tree.sorted, Tree.sortedItems_eq] using hseq
  | object fields ih =>
      have hsorted (entries : List (String × Tree)) : Tree.sorted (.map (Fields.ofList entries)) =
          .map ((onValues Tree.sorted entries).foldl (fun sorted (key, value) => insertSorted key value sorted) []) := by
        rw [Tree.sorted, Tree.sortedFields_eq, foldl_insertSorted_nil, ← onValues_ofList]
        rfl
      have hmap := congrArg (Option.map Tree.map) (fieldsToValues?_eq [] ih)
      rw [toValue?, toTree?, Option.map_map, Option.map_map]
      simpa [Function.comp_def, ofValue_object, hsorted] using hmap

end Json

namespace Tree
open Json

theorem ofValue_ofText? (text : String) : (Value.ofText? text).map ofValue = (ofJson? text).map sorted := by
  rw [Value.ofText?, ofJson?]
  cases Json.read? text.toList with
  | none => rfl
  | some j =>
      dsimp only [Option.bind_eq_bind, Option.bind_some]
      split
      · exact toValue?_eq j
      · rfl

/-! ### Converting -/

-- Whether no double of the tree is infinite or a NaN.
def doublesFinite (t : Tree) : Bool :=
  t.all fun
    | .float x => x.isFinite
    | _ => true

theorem doublesFinite_float_iff {x : Binary64} : (Tree.float x).doublesFinite ↔ x.isFinite := by
  simp [doublesFinite, all]

theorem doublesFinite_seq_iff {items : List Tree} :
    (Tree.seq items).doublesFinite ↔ ∀ t ∈ items, t.doublesFinite := by
  simp [doublesFinite, all_seq_iff]

theorem doublesFinite_map_iff {fields : List (String × Tree)} :
    (Tree.map fields).doublesFinite ↔ ∀ field ∈ fields, field.2.doublesFinite := by
  simp [doublesFinite, all_map_iff]

theorem finite_eq_self {t : Tree} (h : t.doublesFinite) : t.finite = t := by
  induction t with
  | null => rfl
  | bool b => rfl
  | int n => rfl
  | float x => rw [finite, if_pos (doublesFinite_float_iff.mp h)]
  | string s => rfl
  | seq items ih =>
      rw [doublesFinite_seq_iff] at h
      rw [finite, finiteItems_eq]
      exact congrArg Tree.seq (Shape.map_eq_self fun t ht => ih t ht (h t ht))
  | map fields ih =>
      rw [doublesFinite_map_iff] at h
      rw [finite, finiteFields_eq]
      exact congrArg Tree.map (Shape.map_eq_self fun field hmem => Prod.ext rfl (ih field hmem (h field hmem)))

theorem nanFree_of_doublesFinite {t : Tree} (h : t.doublesFinite) : t.nanFree := by
  refine all_mono (fun t ht => ?_) h
  cases t with
  | float x =>
      have hfinite : x.magnitude < Binary64.infinityBits := by simpa [Binary64.isFinite] using ht
      simp [Binary64.isNaN, Nat.le_of_lt hfinite]
  | _ => rfl

theorem toValue_seq (items : List Tree) : (Tree.seq items).toValue = .array (items.map toValue) := by
  rw [toValue]
  refine congrArg Value.array ?_
  induction items with
  | nil => rfl
  | cons t rest ih => rw [toValues, ih, List.map_cons]

theorem toValue_map (fields : List (String × Tree)) :
    (Tree.map fields).toValue = .object ((onValues toValue fields).foldl
      (fun sorted (key, value) => insertSorted key value sorted) []) := by
  rw [toValue]
  refine congrArg Value.object ?_
  generalize ([] : List (String × Value)) = before
  induction fields generalizing before with
  | nil => rfl
  | cons field rest ih =>
      rw [toValueFields, ih]
      rfl

theorem ofValue_int (n : Int64) : ofValue (Tree.int n).toValue = .int n := by
  rw [toValue]
  split
  next => rfl
  next hnot =>
    have hword : n.toUInt64.toNat < 0x8000000000000000 := by
      rw [Int64.toNat_toUInt64_of_le (Int64.not_lt.mp hnot)]
      have := n.toInt_lt
      rw [Int64.toNatClampNeg]
      omega
    rw [ofValue, if_pos hword, Int64.toInt64_toUInt64]

-- What is validated of a tree is the tree as a value.
theorem ofValue_toValue {t : Tree} (h : t.keyed) : ofValue t.toValue = t.plain := by
  induction t with
  | null => rfl
  | bool b => rfl
  | int n => exact ofValue_int n
  | float x =>
      rw [plain_float, toValue]
      split <;> rfl
  | string s => rfl
  | seq items ih =>
      rw [keyed_seq_iff] at h
      rw [toValue_seq, ofValue_array, plain_seq, List.map_map]
      exact congrArg Tree.seq (List.map_congr_left fun t ht => ih t ht (h t ht))
  | map fields ih =>
      obtain ⟨hkeys, hvalues⟩ := keyed_map_iff.mp h
      have hplain : onValues ofValue (onValues toValue fields) = onValues plain fields := by
        rw [onValues, onValues, List.map_map]
        exact List.map_congr_left fun field hmem => Prod.ext rfl (ih field hmem (hvalues _ hmem))
      have hnodup : (Fields.keys (onValues plain fields)).Nodup := by
        rwa [Fields.keys, onValues, List.map_map]
      rw [toValue_map, ofValue_object, onValues_foldl_insertSorted, hplain, onValues_nil, foldl_insertSorted_nil,
        Fields.ofList_eq_self hnodup, plain_map]
      rfl

-- A text is a tree exactly if it is a value, and they are the same. A tree of finite doubles is the same as its
-- value, which is what validation sees.
theorem json_readings_agree :
    (∀ text, Option.Rel (fun v t => (ofValue v).equal t) (Value.ofText? text) (ofJson? text)) ∧
    ∀ t : Tree, t.keyed → ofValue t.toValue = t.plain ∧ (t.doublesFinite → (ofValue t.toValue).equal t) := by
  refine ⟨fun text => ?_, fun t hkeyed => ⟨ofValue_toValue hkeyed, fun hfinite => ?_⟩⟩
  · rcases map_eq_map_iff.mp (ofValue_ofText? text) with ⟨hv, ht⟩ | ⟨v, t, hv, ht, hvt⟩
    · rw [hv, ht]
      exact .none
    · obtain ⟨hkeyed, hnan⟩ := keyed_nanFree_of_ofJson? ht
      rw [hv, ht]
      exact .some (hvt ▸ equal_sorted hkeyed hnan)
  · rw [ofValue_toValue hkeyed, plain, finite_eq_self hfinite]
    exact equal_sorted hkeyed (nanFree_of_doublesFinite hfinite)

-- The least int, minus zero and keys that are not sorted.
def unsorted : Tree :=
  .map [("z", .int (-0x8000000000000000)), ("a", .seq [.float ⟨0x8000000000000000⟩, .null]), ("A", .bool true)]

theorem json_readings_agree_unsorted :
    unsorted.keyed ∧ unsorted.doublesFinite ∧ (ofValue unsorted.toValue).equal unsorted :=
  ⟨by decide, by decide, (json_readings_agree.2 unsorted (by decide)).2 (by decide)⟩

end Tree
end ScraperTimeline
