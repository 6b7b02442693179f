import ScraperTimeline.Proofs.Yaml.Written
import ScraperTimeline.Yaml.Reader

/-!
The nodes that the tokens of a tree are read as. What is read of one tree leaves the collections around it as they
were, so that the next token is taken by the one that the tree is in.
-/
namespace ScraperTimeline.Yaml
open Reading

mutual

-- A tree as it is written, without tags, anchors and aliases.
def nodeOf : Tree → Node
  | .null => .scalar {} "null".toList true
  | .bool b => .scalar {} (if b then "true".toList else "false".toList) true
  | .int n => .scalar {} (Text.decimal n.toInt) true
  | .float x => .scalar {} (Decimal.Layout.yaml.write x) true
  | .string s => .scalar {} s.toList (styleOf s.toList = .plain)
  | .seq items => .seq {} (nodesOf items)
  | .map fields => .map {} (fieldNodes fields)

def nodesOf : List Tree → List Node
  | [] => []
  | t :: rest => nodeOf t :: nodesOf rest

def fieldNodes : List (String × Tree) → List (Node × Node)
  | [] => []
  | (key, t) :: rest => (.scalar {} key.toList (styleOf key.toList = .plain), nodeOf t) :: fieldNodes rest

end

variable {t : Tree} {f : Frame} {outer : List Frame} {names : Names} {tok : Token} {tail : List Token}
  {result : Reading × Names}

/-! ### Content -/

-- The tokens with which a tree starts that does not go on in the lines of its key.
inductive Starts : Token → Prop
  | scalar (text : List Char) (plain : Bool) : Starts (.scalar text plain)
  | flowSequence : Starts .flowSequence
  | flowMapping : Starts .flowMapping
  | blockSequence : Starts .blockSequence
  | blockMapping : Starts .blockMapping

theorem step?_content (h : Starts tok) (names : Names) (f : Frame) (outer : List Frame) :
    step? (.node {} (f :: outer), names) tok = (content? {} (f :: outer) tok).map (·, names) := by
  have hempty : f.isEmptyAt tok = false := by
    cases h <;> cases f <;> simp [Frame.isEmptyAt]
  have hnode : step? (.node {} (f :: outer), names) tok = node? names {} (f :: outer) tok := rfl
  rw [hnode, node?.eq_def, if_neg (by simp [hempty])]
  cases h <;> rfl

theorem foldlM_cons_eq {s s' : Reading × Names} (h : step? s tok = some s') (tail : List Token) :
    (tok :: tail).foldlM step? s = tail.foldlM step? s' := by
  rw [List.foldlM_cons, h]
  rfl

-- The tokens of a tree are read as its node: wherever a block may stand, and as the value of a key, where those of a
-- sequence may be its items only. The mapping then goes on with a token that is no item.
structure Reads (t : Tree) : Prop where
  node : ∀ (f : Frame) (outer : List Frame) (names : Names) (tail : List Token), f.isBlock →
    (tokensOf false t ++ tail).foldlM step? (.node {} (f :: outer), names) =
      tail.foldlM step? (.after (nodeOf t) (f :: outer), names)
  value : ∀ (loose : Bool) (before : List (Node × Node)) (k : Node) (outer : List Frame) (names : Names) (tok : Token)
    (tail : List Token), tok ≠ .entry →
    (tokensOf loose t ++ tok :: tail).foldlM step? (.node {} (.value {} before k :: outer), names) =
      (tok :: tail).foldlM step? (.after (nodeOf t) (.value {} before k :: outer), names)

theorem Reads.of_node (hloose : tokensOf true t = tokensOf false t)
    (h : ∀ (f : Frame) (outer : List Frame) (names : Names) (tail : List Token), f.isBlock →
      (tokensOf false t ++ tail).foldlM step? (.node {} (f :: outer), names) =
        tail.foldlM step? (.after (nodeOf t) (f :: outer), names)) : Reads t where
  node := h
  value := by
    intro loose before k outer names tok tail _
    cases loose with
    | false => exact h _ _ _ _ rfl
    | true =>
        rw [hloose]
        exact h _ _ _ _ rfl

theorem reads_scalar {text : List Char} {plain : Bool} (htokens : ∀ loose, tokensOf loose t = [.scalar text plain])
    (hnode : nodeOf t = .scalar {} text plain) : Reads t := by
  refine .of_node (by rw [htokens, htokens]) fun f outer names tail _ => ?_
  rw [htokens, hnode]
  exact foldlM_cons_eq (step?_content (.scalar text plain) names f outer) tail

/-! ### Sequences -/

-- The items after the first one, in a sequence that keeps its nodes in a frame: the last one is still to be taken.
theorem reads_entries (frame : List Node → Frame) (hblock : ∀ before, (frame before).isBlock)
    (hentry : ∀ n before, step? (.after n (frame before :: outer), names) .entry =
      some (.node {} (frame (n :: before) :: outer), names))
    {items : List Tree} (hreads : ∀ t ∈ items, Reads t) (n : Node) (before : List Node) :
    ∃ last nodes, nodes.reverse ++ [last] = before.reverse ++ n :: nodesOf items ∧ ∀ tail,
      (itemTokens items ++ tail).foldlM step? (.after n (frame before :: outer), names) =
        tail.foldlM step? (.after last (frame nodes :: outer), names) := by
  induction items generalizing n before with
  | nil => exact ⟨n, before, rfl, fun _ => rfl⟩
  | cons t rest ih =>
      obtain ⟨ht, hrest⟩ := List.forall_mem_cons.mp hreads
      obtain ⟨last, nodes, hnodes, hread⟩ := ih hrest (nodeOf t) (n :: before)
      refine ⟨last, nodes, by simpa [nodesOf] using hnodes, fun tail => ?_⟩
      rw [itemTokens, List.cons_append, List.cons_append, foldlM_cons_eq (hentry n before), List.append_assoc,
        ht.node _ outer names _ (hblock _), hread]

theorem reads_items {items : List Tree} (hreads : ∀ t ∈ items, Reads t) (n : Node) (before : List Node) :
    (itemTokens items ++ .blockEnd :: tail).foldlM step? (.after n (.item {} before :: outer), names) =
      tail.foldlM step? (.after (.seq {} (before.reverse ++ n :: nodesOf items)) outer, names) := by
  obtain ⟨last, nodes, hnodes, hread⟩ :=
    reads_entries (.item {}) (fun _ => rfl) (fun _ _ => rfl) hreads n before
  have hend : step? (.after last (.item {} nodes :: outer), names) .blockEnd =
      some (.after (.seq {} (nodes.reverse ++ [last])) outer, names) := by
    simp [step?, complete?]
  rw [hread, foldlM_cons_eq hend, hnodes]

-- A sequence under its key ends where the key's mapping goes on.
theorem reads_looseItems {items : List Tree} (hreads : ∀ t ∈ items, Reads t) (htok : tok ≠ .entry) (n : Node)
    (before : List Node) :
    (itemTokens items ++ tok :: tail).foldlM step? (.after n (.looseItem {} before :: outer), names) =
      (tok :: tail).foldlM step? (.after (.seq {} (before.reverse ++ n :: nodesOf items)) outer, names) := by
  obtain ⟨last, nodes, hnodes, hread⟩ :=
    reads_entries (.looseItem {}) (fun _ => rfl) (fun _ _ => rfl) hreads n before
  have hend : step? (.after last (.looseItem {} nodes :: outer), names) tok =
      step? (.after (.seq {} (nodes.reverse ++ [last])) outer, names) tok := by
    simp [step?, complete?, htok]
  rw [hread, List.foldlM_cons, hend, hnodes, List.foldlM_cons]

theorem reads_empty : Reads (.seq []) :=
  .of_node rfl fun f outer names tail _ =>
    (foldlM_cons_eq (step?_content .flowSequence names f outer) _).trans (foldlM_cons_eq rfl tail)

theorem reads_seq {items : List Tree} (hreads : ∀ t ∈ items, Reads t) : Reads (.seq items) := by
  cases items with
  | nil => exact reads_empty
  | cons t rest =>
      obtain ⟨ht, hrest⟩ := List.forall_mem_cons.mp hreads
      have hblock (f : Frame) (outer : List Frame) (names : Names) (tail : List Token) (hf : f.isBlock) :
          (tokensOf false (.seq (t :: rest)) ++ tail).foldlM step? (.node {} (f :: outer), names) =
            tail.foldlM step? (.after (nodeOf (.seq (t :: rest))) (f :: outer), names) := by
        have hopen : step? (.node {} (f :: outer), names) .blockSequence =
            some (.firstItem {} (f :: outer), names) := by
          rw [step?_content .blockSequence, content?, List.head?_cons, Option.any_some, if_pos hf]
          rfl
        have hentry : step? (.firstItem {} (f :: outer), names) .entry =
            some (.node {} (.item {} [] :: f :: outer), names) := rfl
        have htokens : tokensOf false (.seq (t :: rest)) ++ tail =
            .blockSequence :: .entry :: (tokensOf false t ++ (itemTokens rest ++ .blockEnd :: tail)) := by
          simp [tokensOf, itemTokens]
        rw [htokens, foldlM_cons_eq hopen, foldlM_cons_eq hentry, ht.node (.item {} []) _ names _ rfl,
          reads_items hrest]
        rfl
      refine ⟨hblock, fun loose before k outer names tok tail htok => ?_⟩
      cases loose with
      | false => exact hblock _ _ _ _ rfl
      | true =>
          have hentry : step? (.node {} (.value {} before k :: outer), names) .entry =
              some (.node {} (.looseItem {} [] :: .value {} before k :: outer), names) := rfl
          have htokens : tokensOf true (.seq (t :: rest)) ++ tok :: tail =
              .entry :: (tokensOf false t ++ (itemTokens rest ++ tok :: tail)) := by
            simp [tokensOf, itemTokens]
          rw [htokens, foldlM_cons_eq hentry, ht.node (.looseItem {} []) _ names _ rfl, reads_looseItems hrest htok]
          rfl

/-! ### Mappings -/

theorem reads_fields {fields : List (String × Tree)} (hreads : ∀ field ∈ fields, Reads field.2) {r : Reading}
    (before : List (Node × Node))
    (hr : ∀ tok, step? (r, names) tok = (afterFields? {} before outer tok).map (·, names)) :
    (fieldTokens fields ++ .blockEnd :: tail).foldlM step? (r, names) =
      tail.foldlM step? (.after (.map {} (before.reverse ++ fieldNodes fields)) outer, names) := by
  induction fields generalizing r before with
  | nil =>
      rw [fieldNodes, List.append_nil]
      exact foldlM_cons_eq (hr .blockEnd) tail
  | cons field rest ih =>
      obtain ⟨key, t⟩ := field
      obtain ⟨ht, hrest⟩ := List.forall_mem_cons.mp hreads
      let k : Node := .scalar {} key.toList (styleOf key.toList = .plain)
      have hfirst : step? (r, names) .key = some (.node {} (.key {} before :: outer), names) := hr .key
      have hkey : step? (.node {} (.key {} before :: outer), names) (stringToken key.toList) =
          some (.after k (.key {} before :: outer), names) := step?_content (.scalar _ _) names _ outer
      have hvalue : step? (.after k (.key {} before :: outer), names) .value =
          some (.node {} (.value {} before k :: outer), names) := rfl
      -- Another key or the end of the mapping follows.
      obtain ⟨tok, more, hmore, htok⟩ :
          ∃ tok more, fieldTokens rest ++ .blockEnd :: tail = tok :: more ∧ tok ≠ .entry := by
        cases rest with
        | nil => exact ⟨_, _, rfl, nofun⟩
        | cons field rest => exact ⟨_, _, rfl, nofun⟩
      have htokens : fieldTokens ((key, t) :: rest) ++ .blockEnd :: tail =
          .key :: stringToken key.toList :: .value :: (tokensOf (isSimpleKey key) t ++ tok :: more) := by
        rw [← hmore]
        simp [fieldTokens]
      rw [htokens, foldlM_cons_eq hfirst, foldlM_cons_eq hkey, foldlM_cons_eq hvalue,
        ht.value _ before k outer names tok more htok, ← hmore, ih hrest ((k, nodeOf t) :: before) fun _ => rfl]
      simp [fieldNodes, k]

theorem reads_map {fields : List (String × Tree)} (hreads : ∀ field ∈ fields, Reads field.2) : Reads (.map fields) := by
  refine .of_node rfl fun f outer names tail hf => ?_
  cases fields with
  | nil => exact (foldlM_cons_eq (step?_content .flowMapping names f outer) _).trans (foldlM_cons_eq rfl tail)
  | cons field rest =>
      have hopen : step? (.node {} (f :: outer), names) .blockMapping = some (.firstKey {} (f :: outer), names) := by
        rw [step?_content .blockMapping, content?, List.head?_cons, Option.any_some, if_pos hf]
        rfl
      have htokens : tokensOf false (.map (field :: rest)) ++ tail =
          .blockMapping :: (fieldTokens (field :: rest) ++ .blockEnd :: tail) := by
        simp [tokensOf]
      rw [htokens, foldlM_cons_eq hopen, reads_fields hreads [] fun _ => rfl]
      rfl

theorem reads (t : Tree) : Reads t := by
  induction t with
  | null | bool | int | float | string => exact reads_scalar (fun _ => rfl) rfl
  | seq items ih => exact reads_seq ih
  | map fields ih => exact reads_map ih

/-! ### Documents -/

theorem starts_tokensOf (t : Tree) : ∃ tok rest, tokensOf false t = tok :: rest ∧ Starts tok := by
  cases t with
  | null | bool | int | float | string => exact ⟨_, _, rfl, .scalar _ _⟩
  | seq items =>
      cases items with
      | nil => exact ⟨_, _, rfl, .flowSequence⟩
      | cons t rest => exact ⟨_, _, rfl, .blockSequence⟩
  | map fields =>
      cases fields with
      | nil => exact ⟨_, _, rfl, .flowMapping⟩
      | cons field rest => exact ⟨_, _, rfl, .blockMapping⟩

-- Without directives and marks the first token is one of the root's.
theorem step?_header (h : Starts tok) :
    step? (.header false [], {}) tok = step? (.node {} [.document false], { handles := defaultHandles }) tok := by
  cases h <;> rfl

-- The tokens of a document are read as one node.
theorem foldlM_tokensOf (t : Tree) :
    (tokensOf false t ++ [Token.streamEnd]).foldlM step? (.header false [], {}) =
      some (.done (some (nodeOf t)), { handles := defaultHandles }) := by
  have hroot := (reads t).node (.document false) [] { handles := defaultHandles } [.streamEnd] rfl
  obtain ⟨tok, rest, htokens, hstarts⟩ := starts_tokensOf t
  rw [htokens, List.cons_append, List.foldlM_cons] at hroot ⊢
  rw [step?_header hstarts, hroot]
  rfl

end ScraperTimeline.Yaml
