import ScraperTimeline.Json.Reader
import ScraperTimeline.Proofs.Json.Number
import ScraperTimeline.Proofs.Json.Quoted
import ScraperTimeline.Proofs.Json.Token
import ScraperTimeline.Proofs.Tree.Basic

/-!
Documents that are written for trees. Both forms of the text have the same tokens, and these are read as
one document.
-/
namespace ScraperTimeline.Json
open Text Decimal

-- Integers are digits alone, and a double has a literal if it is finite.
def numberOf? : Tree → Option Number
  | .int n => some (.whole (n.toInt < 0) (digits n.toInt.natAbs))
  | .float x => if x.isFinite then some (.real (literal x.isNegative (shortest x))) else none
  | _ => none

mutual

-- The document that is written for a tree.
def ofTree : Tree → Json
  | .bool b => .bool b
  | .string s => .string s
  | .seq items => .array (ofItems items)
  | .map fields => .object (ofFields fields)
  | t => (numberOf? t).elim .null .number

def ofItems : List Tree → List Json
  | [] => []
  | t :: rest => ofTree t :: ofItems rest

def ofFields : List (String × Tree) → List (String × Json)
  | [] => []
  | (key, t) :: rest => (key, ofTree t) :: ofFields rest

end

mutual

def tokensOf : Tree → List Token
  | .bool b => [.bool b]
  | .string s => [.string (some s)]
  | .seq items => .openArray :: tokensOfItems items
  | .map fields => .openObject :: tokensOfFields fields
  | t => [(numberOf? t).elim .null .number]

def tokensOfItems : List Tree → List Token
  | [] => [.closeArray]
  | [t] => tokensOf t ++ [.closeArray]
  | t :: rest => tokensOf t ++ .comma :: tokensOfItems rest

def tokensOfFields : List (String × Tree) → List Token
  | [] => [.closeObject]
  | [(key, t)] => .string (some key) :: .colon :: (tokensOf t ++ [.closeObject])
  | (key, t) :: rest =>
    .string (some key) :: .colon :: (tokensOf t ++ .comma :: tokensOfFields rest)

end

theorem ofItems_eq (items : List Tree) : ofItems items = items.map ofTree := by
  induction items with
  | nil => rfl
  | cons t rest ih => rw [ofItems, ih, List.map_cons]

theorem ofFields_eq (fields : List (String × Tree)) :
    ofFields fields = fields.map fun field => (field.1, ofTree field.2) := by
  induction fields with
  | nil => rfl
  | cons field rest ih => rw [ofFields, ih, List.map_cons]

/-! ### Tokens of a text -/

-- What may follow a number.
def Ends (rest : List Char) : Prop := ∀ c, rest.head? = some c → endsNumber c

theorem Ends.append {cs rest : List Char} (hcs : Ends cs) (hrest : Ends rest) : Ends (cs ++ rest) := by
  cases cs with
  | nil => exact hrest
  | cons c cs => exact hcs

theorem ends_cons {c : Char} (h : endsNumber c) (rest : List Char) : Ends (c :: rest) := by
  rintro d hd
  obtain rfl : c = d := by simpa using hd
  exact h

-- The tokens of a text, whatever follows it.
def Reads (cs : List Char) (ts : List Token) : Prop :=
  ∀ rest, Ends rest → tokens? (cs ++ rest) = (tokens? rest).map (ts ++ ·)

namespace Reads

variable {c : Char} {cs more : List Char} {t : Token} {ts us : List Token}

theorem tokens?_eq (h : Reads cs ts) : tokens? cs = some ts := by
  have h := h [] (by simp [Ends])
  rw [List.append_nil] at h
  rw [h]
  simp [tokens?]

theorem append (h : Reads cs ts) (hmore : Reads more us) (hends : Ends more) :
    Reads (cs ++ more) (ts ++ us) := by
  intro rest hrest
  rw [List.append_assoc, h (more ++ rest) (hends.append hrest), hmore rest hrest, Option.map_map]
  congr 1
  funext vs
  simp

theorem cons (hspace : ¬isSpace c) (htoken : ∀ rest, token? (c :: rest) = some (t, rest))
    (h : Reads cs ts) : Reads (c :: cs) (t :: ts) := by
  intro rest hrest
  rw [List.cons_append, tokens?_of_token hspace (htoken (cs ++ rest)), h rest hrest, Option.map_map]
  rfl

theorem space (hspace : isSpace c) (h : Reads cs ts) : Reads (c :: cs) ts := by
  intro rest hrest
  rw [List.cons_append, tokens?, if_pos hspace, h rest hrest]

theorem newline (level : Nat) (h : Reads cs ts) : Reads (newline level ++ cs) ts := by
  rw [Json.newline, List.cons_append]
  refine space rfl ?_
  induction 2 * level with
  | zero => exact h
  | succ count ih => exact space rfl ih

theorem quoted (s : String) (h : Reads cs ts) : Reads (quoted s ++ cs) (.string (some s) :: ts) := by
  intro rest hrest
  have hspace : ¬isSpace '"' := by decide
  have htoken := token?_quoted s (cs ++ rest)
  rw [Json.quoted, List.cons_append, List.cons_append] at htoken
  rw [List.append_assoc, Json.quoted, List.cons_append, List.cons_append,
    tokens?_of_token hspace htoken, h rest hrest, Option.map_map]
  rfl

theorem number {n : Number} (h : number? cs = some (n, [])) : Reads cs [.number n] := by
  intro rest hrest
  obtain ⟨c, tail, rfl, hc⟩ := number?_start h
  have hspace : ¬isSpace c := by
    rcases hc with rfl | hdigit
    · decide
    · intro hspace
      have hends := (endsNumber_iff.mp (endsNumber_of_isSpace hspace)).1
      rw [hdigit] at hends
      cases hends
  have htoken : token? (c :: (tail ++ rest)) = some (.number n, rest) := by
    rw [token?_of_number hc, ← List.cons_append]
    cases rest with
    | nil => rw [List.append_nil, h, Option.map_some]
    | cons stop rest => rw [number?_append (hrest stop rfl) h, Option.map_some, List.nil_append]
  rw [List.cons_append, tokens?_of_token hspace htoken]
  rfl

end Reads

theorem reads_nil : Reads [] [] := by
  intro rest _
  cases h : tokens? rest <;> simp [h]

section
variable {cs : List Char} {ts : List Token}

theorem reads_null : Reads "null".toList [.null] := by
  intro rest _
  exact tokens?_of_token (by decide) rfl

theorem reads_bool (b : Bool) : Reads (scalar (.bool b)) [.bool b] := by
  intro rest _
  cases b <;> exact tokens?_of_token (by decide) rfl

theorem reads_string (s : String) : Reads (quoted s) [.string (some s)] := by
  have h := Reads.quoted s reads_nil
  rwa [List.append_nil] at h

theorem reads_int (n : Int64) : Reads (scalar (.int n)) (tokensOf (.int n)) := .number (number?_decimal n.toInt)

theorem reads_float (x : Binary64) : Reads (scalar (.float x)) (tokensOf (.float x)) := by
  rw [scalar, tokensOf, numberOf?]
  · cases hfinite : x.isFinite with
    | true => exact .number (number?_write hfinite)
    | false =>
        rw [write_of_not_isFinite hfinite]
        exact reads_null
  all_goals simp

theorem reads_close_array : Reads [']'] [.closeArray] := .cons (by decide) (fun _ => rfl) reads_nil

theorem reads_close_object : Reads ['}'] [.closeObject] := .cons (by decide) (fun _ => rfl) reads_nil

theorem Reads.comma (h : Reads cs ts) : Reads (',' :: cs) (.comma :: ts) := h.cons (by decide) fun _ => rfl

theorem Reads.colon (h : Reads cs ts) : Reads (':' :: cs) (.colon :: ts) := h.cons (by decide) fun _ => rfl

theorem Reads.openArray (h : Reads cs ts) : Reads ('[' :: cs) (.openArray :: ts) :=
  h.cons (by decide) fun _ => rfl

theorem Reads.openObject (h : Reads cs ts) : Reads ('{' :: cs) (.openObject :: ts) :=
  h.cons (by decide) fun _ => rfl

end

section
variable {items : List Tree} {fields : List (String × Tree)}

theorem reads_compactItems (h : ∀ t ∈ items, Reads (compact t) (tokensOf t)) :
    Reads (compactItems items) (tokensOfItems items) := by
  induction items with
  | nil => exact reads_close_array
  | cons t rest ih =>
      obtain ⟨ht, hrest⟩ := List.forall_mem_cons.mp h
      cases rest with
      | nil => exact ht.append reads_close_array (ends_cons rfl [])
      | cons => exact ht.append (ih hrest).comma (ends_cons rfl _)

theorem reads_compactFields (h : ∀ field ∈ fields, Reads (compact field.2) (tokensOf field.2)) :
    Reads (compactFields fields) (tokensOfFields fields) := by
  induction fields with
  | nil => exact reads_close_object
  | cons field rest ih =>
      obtain ⟨key, t⟩ := field
      obtain ⟨ht, hrest⟩ := List.forall_mem_cons.mp h
      cases rest with
      | nil =>
          have hvalue := ht.append reads_close_object (ends_cons rfl [])
          simpa [compactFields, tokensOfFields] using hvalue.colon.quoted key
      | cons next rest =>
          have hvalue := ht.append (ih hrest).comma (ends_cons rfl _)
          simpa [compactFields, tokensOfFields] using hvalue.colon.quoted key

theorem reads_compact (t : Tree) : Reads (compact t) (tokensOf t) := by
  induction t with
  | null => exact reads_null
  | bool b => exact reads_bool b
  | int n => exact reads_int n
  | float x => exact reads_float x
  | string s => exact reads_string s
  | seq items ih => exact (reads_compactItems ih).openArray
  | map fields ih => exact (reads_compactFields ih).openObject

theorem reads_prettyItems (level : Nat) (hne : items ≠ [])
    (h : ∀ t ∈ items, Reads (pretty (level + 1) t) (tokensOf t)) :
    Reads (prettyItems level items) (tokensOfItems items) := by
  induction items with
  | nil => exact (hne rfl).elim
  | cons t rest ih =>
      obtain ⟨ht, hrest⟩ := List.forall_mem_cons.mp h
      cases rest with
      | nil =>
          have hclose := reads_close_array.newline level
          simpa [prettyItems, tokensOfItems] using ht.append hclose (ends_cons rfl _)
      | cons next rest =>
          have hmore := ((ih (by simp) hrest).newline (level + 1)).comma
          simpa [prettyItems, tokensOfItems] using ht.append hmore (ends_cons rfl _)

theorem reads_prettyFields (level : Nat) (hne : fields ≠ [])
    (h : ∀ field ∈ fields, Reads (pretty (level + 1) field.2) (tokensOf field.2)) :
    Reads (prettyFields level fields) (tokensOfFields fields) := by
  induction fields with
  | nil => exact (hne rfl).elim
  | cons field rest ih =>
      obtain ⟨key, t⟩ := field
      obtain ⟨ht, hrest⟩ := List.forall_mem_cons.mp h
      cases rest with
      | nil =>
          have hclose := reads_close_object.newline level
          have hvalue := ht.append hclose (ends_cons rfl _)
          simpa [prettyFields, tokensOfFields] using (hvalue.space (c := ' ') rfl).colon.quoted key
      | cons next rest =>
          have hmore := ((ih (by simp) hrest).newline (level + 1)).comma
          have hvalue := ht.append hmore (ends_cons rfl _)
          simpa [prettyFields, tokensOfFields] using (hvalue.space (c := ' ') rfl).colon.quoted key

theorem reads_pretty (level : Nat) (t : Tree) : Reads (pretty level t) (tokensOf t) := by
  induction t generalizing level with
  | null => exact reads_null
  | bool b => exact reads_bool b
  | int n => exact reads_int n
  | float x => exact reads_float x
  | string s => exact reads_string s
  | seq items ih =>
      cases items with
      | nil => exact reads_close_array.openArray
      | cons t rest =>
          have hitems := reads_prettyItems level (by simp) fun t ht => ih t ht (level + 1)
          simpa [pretty, tokensOf] using (hitems.newline (level + 1)).openArray
  | map fields ih =>
      cases fields with
      | nil => exact reads_close_object.openObject
      | cons field rest =>
          have hfields := reads_prettyFields level (by simp) fun field hfield => ih field hfield (level + 1)
          simpa [pretty, tokensOf] using (hfields.newline (level + 1)).openObject

end

/-! ### The document of the tokens -/

-- Reading goes on after the value that the tokens make.
def Values (ts : List Token) (value : Json) : Prop :=
  ∀ outer rest, (ts ++ rest).foldlM Reading.step? (.value outer) =
    rest.foldlM Reading.step? (.after value outer)

theorem foldlM_step?_cons {r next : Reading} {t : Token} {ts : List Token} (h : r.step? t = some next) :
    (t :: ts).foldlM Reading.step? r = ts.foldlM Reading.step? next := by
  rw [List.foldlM_cons, h]
  rfl

-- No value starts with the end of an array, so the first item is read as any other.
theorem step?_firstItem {t : Token} (h : t ≠ .closeArray) (outer : List Frame) :
    (Reading.firstItem outer).step? t = (Reading.value (.item [] :: outer)).step? t := by
  cases t with
  | closeArray => exact (h rfl).elim
  | _ => rfl

theorem exists_tokensOf_eq_cons (t : Tree) : ∃ first rest, tokensOf t = first :: rest ∧ first ≠ .closeArray := by
  cases t with
  | float x => cases hfinite : x.isFinite <;> simp [tokensOf, numberOf?, hfinite]
  | _ => exact ⟨_, _, rfl, by simp [numberOf?]⟩

theorem foldlM_firstItem (t : Tree) (outer : List Frame) (rest : List Token) :
    (tokensOf t ++ rest).foldlM Reading.step? (.firstItem outer) =
      (tokensOf t ++ rest).foldlM Reading.step? (.value (.item [] :: outer)) := by
  obtain ⟨first, more, htokens, hfirst⟩ := exists_tokensOf_eq_cons t
  rw [htokens, List.cons_append, List.foldlM_cons, List.foldlM_cons, step?_firstItem hfirst]

section
variable {items : List Tree} {fields : List (String × Tree)} {outer : List Frame} {rest : List Token}

theorem foldlM_items (hne : items ≠ []) (h : ∀ t ∈ items, Values (tokensOf t) (ofTree t))
    (before : List Json) :
    (tokensOfItems items ++ rest).foldlM Reading.step? (.value (.item before :: outer)) =
      rest.foldlM Reading.step? (.after (.array (before.reverse ++ items.map ofTree)) outer) := by
  induction items generalizing before with
  | nil => exact (hne rfl).elim
  | cons t more ih =>
      obtain ⟨ht, hmore⟩ := List.forall_mem_cons.mp h
      cases more with
      | nil =>
          rw [tokensOfItems, List.append_assoc, ht, List.singleton_append, foldlM_step?_cons rfl]
          simp
      | cons next more =>
          rw [tokensOfItems, List.append_assoc, ht, List.cons_append, foldlM_step?_cons rfl,
            ih (by simp) hmore]
          · simp
          · simp

theorem foldlM_fields (hne : fields ≠ []) (h : ∀ field ∈ fields, Values (tokensOf field.2) (ofTree field.2))
    (before : List (String × Json)) :
    (tokensOfFields fields ++ rest).foldlM Reading.step? (.key before outer) =
      rest.foldlM Reading.step?
        (.after (.object (before.reverse ++ fields.map fun field => (field.1, ofTree field.2))) outer) := by
  induction fields generalizing before with
  | nil => exact (hne rfl).elim
  | cons field more ih =>
      obtain ⟨key, t⟩ := field
      obtain ⟨ht, hmore⟩ := List.forall_mem_cons.mp h
      cases more with
      | nil =>
          rw [tokensOfFields, List.cons_append, List.cons_append, List.append_assoc, foldlM_step?_cons rfl,
            foldlM_step?_cons rfl, ht, List.singleton_append, foldlM_step?_cons rfl]
          simp
      | cons next more =>
          rw [tokensOfFields, List.cons_append, List.cons_append, List.append_assoc, foldlM_step?_cons rfl,
            foldlM_step?_cons rfl, ht, List.cons_append, foldlM_step?_cons rfl, ih (by simp) hmore]
          · simp
          · simp

end

theorem values_tokensOf (t : Tree) : Values (tokensOf t) (ofTree t) := by
  induction t with
  | null => exact fun _ _ => rfl
  | bool b => exact fun _ _ => rfl
  | int n => exact fun _ _ => rfl
  | float x =>
      intro outer rest
      cases hfinite : x.isFinite <;> simp [tokensOf, ofTree, numberOf?, hfinite] <;> rfl
  | string s => exact fun _ _ => rfl
  | seq items ih =>
      intro outer rest
      rw [tokensOf, ofTree, ofItems_eq, List.cons_append, foldlM_step?_cons rfl]
      cases items with
      | nil => exact foldlM_step?_cons rfl
      | cons t more =>
          have hfirst : (tokensOfItems (t :: more) ++ rest).foldlM Reading.step? (.firstItem outer) =
              (tokensOfItems (t :: more) ++ rest).foldlM Reading.step? (.value (.item [] :: outer)) := by
            cases more with
            | nil =>
                rw [tokensOfItems, List.append_assoc]
                exact foldlM_firstItem t outer _
            | cons next more =>
                rw [tokensOfItems, List.append_assoc]
                · exact foldlM_firstItem t outer _
                · simp
          rw [hfirst, foldlM_items (by simp) ih, List.reverse_nil, List.nil_append]
  | map fields ih =>
      intro outer rest
      rw [tokensOf, ofTree, ofFields_eq, List.cons_append, foldlM_step?_cons rfl]
      cases fields with
      | nil => exact foldlM_step?_cons rfl
      | cons field more =>
          have hfields := @foldlM_fields _ outer rest (by simp) ih []
          rw [List.reverse_nil, List.nil_append] at hfields
          rw [← hfields]
          cases more with
          | nil => rfl
          | cons => rfl

theorem read?_of_reads {cs : List Char} {t : Tree} (h : Reads cs (tokensOf t)) : read? cs = some (ofTree t) := by
  have hvalue := values_tokensOf t [] []
  rw [List.append_nil] at hvalue
  rw [read?, h.tokens?_eq]
  change ((tokensOf t).foldlM Reading.step? (.value [])).bind _ = _
  rw [hvalue]
  rfl

theorem read?_toJson (t : Tree) : read? t.toJson.toList = some (ofTree t) := by
  rw [Tree.toJson, String.toList_ofList]
  exact read?_of_reads (reads_compact t)

theorem read?_toPrettyJson (t : Tree) : read? t.toPrettyJson.toList = some (ofTree t) := by
  rw [Tree.toPrettyJson, String.toList_ofList]
  exact read?_of_reads (reads_pretty 0 t)

end ScraperTimeline.Json
