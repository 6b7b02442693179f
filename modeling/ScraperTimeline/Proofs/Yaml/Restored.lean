import ScraperTimeline.Proofs.Tree.Fields
import ScraperTimeline.Proofs.Yaml.Nodes
import ScraperTimeline.Proofs.Yaml.Printable

/-!
Trees that are printed as YAML and read back. A tree without floats comes back as it was, with its keys in their
order, unless it is nested deeper than aliases are followed.
-/
namespace ScraperTimeline

namespace Yaml
open Node

variable {t : Tree} {s : List Char}

theorem nodesOf_eq (items : List Tree) : nodesOf items = items.map nodeOf := by
  induction items with
  | nil => rfl
  | cons t rest ih => rw [nodesOf, ih, List.map_cons]

def fieldNode (field : String × Tree) : Node × Node :=
  (.scalar {} field.1.toList (styleOf field.1.toList = .plain), nodeOf field.2)

theorem fieldNodes_eq (fields : List (String × Tree)) : fieldNodes fields = fields.map fieldNode := by
  induction fields with
  | nil => rfl
  | cons field rest ih =>
      obtain ⟨key, t⟩ := field
      rw [fieldNodes, ih, List.map_cons]
      rfl

/-! ### Aliases -/

theorem run_mapM_map {α β : Type} {f : β → Following β} {g : α → β} {as : List α} {p : α → Prop} [DecidablePred p]
    (h : ∀ a ∈ as, ∀ left, (f (g a)).run left = if p a then some (g a, left) else none) (left : Nat) :
    ((as.map g).mapM f).run left = if ∀ a ∈ as, p a then some (as.map g, left) else none := by
  induction as with
  | nil => rfl
  | cons a as ih =>
      obtain ⟨ha, has⟩ := List.forall_mem_cons.mp h
      simp only [List.map_cons, List.mapM_cons, StateT.run_bind, ha, List.forall_mem_cons]
      by_cases hp : p a
      · have hrest := ih has
        by_cases hall : ∀ a ∈ as, p a
        · rw [if_pos hall] at hrest
          rw [if_pos hp, if_pos ⟨hp, hall⟩, Option.bind_eq_bind, Option.bind_some, hrest]
          rfl
        · rw [if_neg hall] at hrest
          rw [if_pos hp, if_neg fun h => hall h.2, Option.bind_eq_bind, Option.bind_some, hrest]
          rfl
      · rw [if_neg hp, if_neg fun h => hp h.1]
        rfl

theorem expand_scalar (anchors : List (Nat × Node)) (depth : Nat) (p : Properties) (text : List Char) (plain : Bool)
    (left : Nat) : (expand anchors depth (.scalar p text plain)).run left = some (.scalar p text plain, left) := by
  cases depth <;> rfl

def expandField (anchors : List (Nat × Node)) (depth : Nat) (field : Node × Node) : Following (Node × Node) := do
  return (← expand anchors depth field.1, ← expand anchors depth field.2)

theorem expand_map (anchors : List (Nat × Node)) (depth : Nat) (p : Properties) (fields : List (Node × Node)) :
    expand anchors (depth + 1) (.map p fields) =
      (do return .map p (← fields.mapM (expandField anchors depth))) := by
  rw [expand]
  rfl

-- Without aliases a node stands for itself, if it is not nested too deep.
theorem expand_nodeOf (anchors : List (Nat × Node)) (t : Tree) (depth left : Nat) :
    (expand anchors depth (nodeOf t)).run left = if t.depth ≤ depth then some (nodeOf t, left) else none := by
  induction t generalizing depth left with
  | null | bool | int | float | string => exact expand_scalar ..
  | seq items ih =>
      cases depth with
      | zero => simp [nodeOf, expand, pointed, Tree.depth]
      | succ depth =>
          have hrun := run_mapM_map fun t ht left => ih t ht depth left
          rw [nodeOf, nodesOf_eq, expand]
          simp only [Tree.depth_seq_le_iff, pointed, pure_bind, StateT.run_bind, hrun]
          split <;> rfl
  | map fields ih =>
      cases depth with
      | zero => simp [nodeOf, expand, pointed, Tree.depth]
      | succ depth =>
          have hfields : ∀ field ∈ fields, ∀ left, (expandField anchors depth (fieldNode field)).run left =
              if field.2.depth ≤ depth then some (fieldNode field, left) else none := by
            intro field hfield left
            simp only [expandField, fieldNode, StateT.run_bind, expand_scalar, ih field hfield]
            split <;> rfl
          rw [nodeOf, fieldNodes_eq, expand_map]
          simp only [Tree.depth_map_le_iff, StateT.run_bind, run_mapM_map hfields]
          split <;> rfl

theorem resolved?_nodeOf (t : Tree) :
    (nodeOf t).resolved? = if t.depth ≤ maxDepth then some (nodeOf t) else none := by
  rw [resolved?, expand_nodeOf]
  split <;> rfl

/-! ### Scalars -/

theorem exists_digits_eq (n : Nat) : ∃ a s, Text.digits n = a :: s ∧ Text.isDigit a := by
  obtain ⟨a, s, heq⟩ := List.exists_cons_of_ne_nil (Text.digits_ne_nil n)
  exact ⟨a, s, heq, Text.isDigit_of_mem_digits (heq ▸ List.mem_cons_self)⟩

theorem notSign_of_isDigit {a : Char} (h : Text.isDigit a) : a ≠ '+' ∧ a ≠ '-' := by
  constructor <;> rintro rfl <;> exact absurd h (by decide)

theorem magnitude?_digits (n : Nat) : magnitude? (Text.digits n) = some n := by
  by_cases hzero : n = 0
  · rw [hzero]
    rfl
  · have hdigits := Text.natural?_digits n
    have hfirst := Text.head?_digits_ne hzero
    obtain ⟨a, s, heq, ha⟩ := exists_digits_eq n
    rw [heq] at hdigits hfirst ⊢
    have hzero : a ≠ '0' := fun h => hfirst (by rw [h]; rfl)
    have hlead : hasLeadingZero (a :: s) = false := by
      simp [hasLeadingZero, withoutSign, hzero, notSign_of_isDigit ha]
    simp [magnitude?, hzero, hlead, hdigits]

theorem integer?_decimal (n : Int) : integer? (Text.decimal n) = some n := by
  cases n with
  | ofNat n =>
      obtain ⟨a, s, heq, ha⟩ := exists_digits_eq n
      have hmagnitude := magnitude?_digits n
      rw [Text.decimal, heq] at *
      simp [integer?, notSign_of_isDigit ha, hmagnitude]
  | negSucc n =>
      rw [Text.decimal, integer?, magnitude?_digits]
      rfl

-- What starts with a sign or a digit is no other word.
theorem notWord_of_first {a : Char} (ha : a = '-' ∨ Text.isDigit a) :
    isNull (a :: s) = false ∧ bool? (a :: s) = none := by
  have hwords : ∀ w ∈ nullWords ++ trueWords ++ falseWords,
      w.toList.head?.all (fun b => b ≠ '-' && !Text.isDigit b) := by
    decide
  have hnone : String.ofList (a :: s) ∉ nullWords ++ trueWords ++ falseWords := by
    intro hmem
    have hfirst := hwords _ hmem
    rw [String.toList_ofList] at hfirst
    rcases ha with rfl | ha
    · simp at hfirst
    · simp [ha] at hfirst
  simp only [List.mem_append, not_or] at hnone
  obtain ⟨⟨hnull, htrue⟩, hfalse⟩ := hnone
  exact ⟨decide_eq_false hnull, by rw [bool?, if_neg htrue, if_neg hfalse]⟩

theorem first_decimal (n : Int) : ∃ a s, Text.decimal n = a :: s ∧ (a = '-' ∨ Text.isDigit a) := by
  cases n with
  | ofNat n =>
      obtain ⟨a, s, heq, ha⟩ := exists_digits_eq n
      exact ⟨a, s, heq, .inr ha⟩
  | negSucc n => exact ⟨'-', _, rfl, .inl rfl⟩

theorem scalarTree?_int (n : Int64) : scalarTree? {} (Text.decimal n.toInt) true = some (.int n) := by
  have hlow : -0x8000000000000000 ≤ n.toInt := Int64.le_toInt n
  have hhigh : n.toInt < 0x8000000000000000 := Int64.toInt_lt n
  have hdouble : isDoubleWord n.toInt := by
    rw [isDoubleWord, Bool.and_eq_true, decide_eq_true_eq, decide_eq_true_eq]
    omega
  have hinteger := integer?_decimal n.toInt
  obtain ⟨a, s, heq, ha⟩ := first_decimal n.toInt
  obtain ⟨hnull, hbool⟩ := notWord_of_first (s := s) ha
  rw [heq] at hinteger ⊢
  have hplain : Scalar.ofPlain (a :: s) = .int n.toInt := by
    rw [Scalar.ofPlain, hnull, if_neg Bool.false_ne_true, hbool, hinteger, Option.filter_some, if_pos hdouble]
  have hword : Tree.word? n.toInt = some n := by
    rw [Tree.word?, if_pos ⟨hlow, hhigh⟩, Int64.ofInt_toInt]
  change (Scalar.ofPlain (a :: s)).toTree? (a :: s) = _
  rw [hplain, Scalar.toTree?, intToTree?, hword]

theorem scalarTree?_string (s : String) :
    scalarTree? {} s.toList (styleOf s.toList = .plain) = some (.string s) := by
  rw [scalarTree?]
  dsimp only
  split
  next hplain =>
    obtain ⟨hreads, -⟩ := plain_of_styleOf (of_decide_eq_true hplain)
    rw [of_decide_eq_true (Bool.and_eq_true_iff.mp hreads).1, Scalar.toTree?, String.ofList_toList]
  next => rw [String.ofList_toList]

/-! ### Trees -/

theorem itemTrees?_nodesOf {items : List Tree} (h : ∀ t ∈ items, (nodeOf t).toTree? = some t) :
    itemTrees? (nodesOf items) = some items := by
  induction items with
  | nil => rfl
  | cons t rest ih =>
      obtain ⟨ht, hrest⟩ := List.forall_mem_cons.mp h
      simp [nodesOf, itemTrees?, ht, ih hrest]

theorem fieldTrees?_fieldNodes {fields : List (String × Tree)}
    (h : ∀ field ∈ fields, (nodeOf field.2).toTree? = some field.2) :
    fieldTrees? (fieldNodes fields) = some fields := by
  induction fields with
  | nil => rfl
  | cons field rest ih =>
      obtain ⟨key, t⟩ := field
      obtain ⟨ht, hrest⟩ := List.forall_mem_cons.mp h
      have hkey : (Node.scalar {} key.toList (styleOf key.toList = .plain)).toTree? = some (.string key) :=
        scalarTree?_string key
      have ht : (nodeOf t).toTree? = some t := ht
      simp [fieldNodes, fieldTrees?, hkey, ht, ih hrest, Tree.string?]

theorem toTree?_nodeOf (hkeyed : t.keyed) (hfree : t.floatFree) : (nodeOf t).toTree? = some t := by
  induction t with
  | null => rfl
  | bool b => cases b <;> rfl
  | int n => exact scalarTree?_int n
  | float x => cases hfree
  | string s => exact scalarTree?_string s
  | seq items ih =>
      rw [Tree.keyed_seq_iff] at hkeyed
      rw [Tree.floatFree_seq_iff] at hfree
      have hitems := itemTrees?_nodesOf fun t ht => ih t ht (hkeyed t ht) (hfree t ht)
      rw [nodeOf, toTree?, hitems]
      rfl
  | map fields ih =>
      obtain ⟨hkeys, hkeyed⟩ := Tree.keyed_map_iff.mp hkeyed
      rw [Tree.floatFree_map_iff] at hfree
      have hfields := fieldTrees?_fieldNodes fun field hfield =>
        ih field hfield (hkeyed field hfield) (hfree field hfield)
      rw [nodeOf, toTree?, hfields]
      exact congrArg (fun fields => some (Tree.map fields)) (Fields.ofList_eq_self hkeys)

end Yaml

-- What is printed is read as the same tree, or refused for its depth.
theorem Tree.ofYaml?_toYaml {t : Tree} (hkeyed : t.keyed) (hfree : t.floatFree) :
    Tree.ofYaml? t.toYaml = if t.depth ≤ Yaml.Node.maxDepth then some t else none := by
  have hread : Yaml.read? t.toYaml.toList = some (some (Yaml.nodeOf t)) := by
    rw [Yaml.read?, Yaml.tokens?_toYaml hfree, Option.bind_eq_bind, Option.bind_some, Yaml.foldlM_tokensOf]
    rfl
  simp only [Tree.ofYaml?, hread, Yaml.resolved?_nodeOf, Option.bind_eq_bind, Option.bind_some]
  split
  · exact Yaml.toTree?_nodeOf hkeyed hfree
  · rfl

-- Whatever characters the strings and the keys of a tree have, its text in YAML gives the tree itself; a tree that is
-- nested too deep is still printed, but its text is refused.
theorem Tree.yaml_text_reads_back {t : Tree} (hkeyed : t.keyed) (hfree : t.floatFree) :
    (t.depth ≤ Yaml.Node.maxDepth → Tree.ofYaml? t.toYaml = some t) ∧
      (Yaml.Node.maxDepth < t.depth → Tree.ofYaml? t.toYaml = none) := by
  have hread := Tree.ofYaml?_toYaml hkeyed hfree
  refine ⟨fun hdepth => ?_, fun hdeep => ?_⟩
  · rw [hread, if_pos hdepth]
  · rw [hread, if_neg (Nat.not_le.mpr hdeep)]

-- Strings that read as other scalars, that start as markup does, or that have line breaks and blanks at their ends;
-- keys that are empty, multi-line or too long for one line; and a tree that is nested one level too deep.
theorem Tree.yaml_text_reads_back_indicators :
    let strings : Tree := .seq ([ "", "~", "null", "True", "-0x1f", "1e3", ".inf", "- a", "a: b", "a #b", "? ", "'",
      "\"\\", " a", "a ", "---", "a\nb", "a\n", " a\n\n b\n\n", "\n", "\u2028", "a\u2029", "\t", "\u0085\x07",
      "😀" ].map .string)
    let tree : Tree := .map [("null", strings), ("", .map []),
      ("a\nb", .seq [.seq [], .seq [.null], .map [("", .null)]]),
      (String.ofList (List.replicate 129 'k'), .seq [.int Int64.minValue, .int Int64.maxValue, .bool false])]
    let deep : Tree := (fun t => Tree.seq [t])^[129] .null
    Tree.ofYaml? tree.toYaml = some tree ∧ Tree.ofYaml? deep.toYaml = none := by
  intro strings tree deep
  have htree : tree.keyed ∧ tree.floatFree ∧ tree.depth ≤ Yaml.Node.maxDepth := by decide +kernel
  have hdeep : deep.keyed ∧ deep.floatFree ∧ Yaml.Node.maxDepth < deep.depth := by decide +kernel
  exact ⟨(Tree.yaml_text_reads_back htree.1 htree.2.1).1 htree.2.2,
    (Tree.yaml_text_reads_back hdeep.1 hdeep.2.1).2 hdeep.2.2⟩

end ScraperTimeline
