import ScraperTimeline.Proofs.Tree.Basic
import ScraperTimeline.Proofs.Yaml.Steps

/-!
Printed trees by their tokens. Each node is scanned up to where the text goes on after it, and the blocks around it
are then as they were before it.
-/
namespace ScraperTimeline.Yaml
open Cursor

variable {c : Cursor} {r x : List Char} {column n : Nat} {σ : Blocks} {allowed loose : Bool} {ts : List Token} {t : Tree}

/-! ### Tokens -/

mutual

-- The tokens of a tree. A sequence that is not indented under its key has no tokens of its own.
def tokensOf (loose : Bool) : Tree → List Token
  | .null => [.scalar "null".toList true]
  | .bool b => [.scalar (if b then "true".toList else "false".toList) true]
  | .int n => [.scalar (Text.decimal n.toInt) true]
  | .float x => [.scalar (Decimal.Layout.yaml.write x) true]
  | .string s => [stringToken s.toList]
  | .seq items =>
    if items.isEmpty then [.flowSequence, .flowSequenceEnd]
    else if loose then itemTokens items
    else .blockSequence :: itemTokens items ++ [.blockEnd]
  | .map fields =>
    if fields.isEmpty then [.flowMapping, .flowMappingEnd]
    else .blockMapping :: fieldTokens fields ++ [.blockEnd]

def itemTokens : List Tree → List Token
  | [] => []
  | t :: rest => .entry :: tokensOf false t ++ itemTokens rest

def fieldTokens : List (String × Tree) → List Token
  | [] => []
  | (key, t) :: rest =>
    .key :: stringToken key.toList :: .value :: tokensOf (isSimpleKey key) t ++ fieldTokens rest

end

/-! ### Unquoted words -/

theorem plain_of_word {a : Char} {w : List Char} (ha : Opens a w)
    (hw : ∀ x ∈ a :: w, isGap x = false ∧ x ≠ ':' ∧ x ≠ '#') (hdashes : ['-', '-', '-'].isPrefixOf (a :: w) = false)
    (hdots : ['.', '.', '.'].isPrefixOf (a :: w) = false) : Plain (a :: w) where
  blanks := fun x hx hgap => by simp [(hw x hx).1] at hgap
  colons := fun p q heq => absurd rfl (hw ':' (by simp [heq])).2.1
  hashes := fun p q heq => absurd rfl (hw '#' (by simp [heq])).2.2
  last := fun hlast => absurd (hw ' ' (List.mem_of_getLast? hlast)).1 (by decide)
  opens := ⟨a, w, rfl, ha⟩
  dashes := hdashes
  dots := hdots

theorem word_of_isDigit {a : Char} (h : Text.isDigit a) :
    isGap a = false ∧ a ≠ ':' ∧ a ≠ '#' ∧ a ≠ '-' ∧ a ≠ '.' ∧ a ≠ '?' ∧ a ≠ '\ufeff' ∧ a ∉ openingIndicators := by
  have hne (b : Char) (hb : Text.isDigit b = false) : a ≠ b := by
    rintro rfl
    simp [h] at hb
  have hgap : isGap a = false := by
    simp [isGap, isBlank, isLineEnd, hne ' ' (by decide), hne '\t' (by decide), hne '\n' (by decide),
      hne '\u2028' (by decide), hne '\u2029' (by decide)]
  refine ⟨hgap, hne _ (by decide), hne _ (by decide), hne _ (by decide), hne _ (by decide), hne _ (by decide),
    hne _ (by decide), fun hmem => ?_⟩
  have hindicators : openingIndicators.all (!Text.isDigit ·) := by decide
  simpa [h] using List.all_eq_true.mp hindicators a hmem

theorem plain_of_digits {s : List Char} (hne : s ≠ []) (hs : ∀ a ∈ s, Text.isDigit a) : Plain s ∧ Plain ('-' :: s) := by
  obtain ⟨a, w, rfl⟩ := List.exists_cons_of_ne_nil hne
  obtain ⟨hgap, hcolon, hhash, hdash, hdot, hquestion, hmark, hindicator⟩ := word_of_isDigit (hs a List.mem_cons_self)
  have hword : ∀ x ∈ a :: w, isGap x = false ∧ x ≠ ':' ∧ x ≠ '#' := fun x hx =>
    have h := word_of_isDigit (hs x hx)
    ⟨h.1, h.2.1, h.2.2.1⟩
  have hstarts : startsGap (a :: w) = false := hgap
  constructor
  · refine plain_of_word ⟨⟨hgap, hhash, hmark⟩, hindicator, ?_⟩ hword ?_ ?_
    · rintro (h | h | h) <;> contradiction
    · simp [List.isPrefixOf, Ne.symm hdash]
    · simp [List.isPrefixOf, Ne.symm hdot]
  · refine plain_of_word ⟨by decide, by decide, fun _ => hstarts⟩ (List.forall_mem_cons.mpr ⟨by decide, hword⟩) ?_ ?_
    · simp [List.isPrefixOf, Ne.symm hdash]
    · simp [List.isPrefixOf]

theorem plain_decimal (n : Int) : Plain (Text.decimal n) := by
  cases n with
  | ofNat n => exact (plain_of_digits (Text.digits_ne_nil n) fun a => Text.isDigit_of_mem_digits).1
  | negSucc n => exact (plain_of_digits (Text.digits_ne_nil (n + 1)) fun a => Text.isDigit_of_mem_digits).2

/-! ### Places -/

-- A node stands where its first line goes on or begins, with the blocks of the nodes around it.
def Placed (loose : Bool) (column : Nat) (allowed : Bool) (c : Cursor) (σ : Blocks) : Tree → Prop
  | .seq (_ :: _) => allowed ∧ c.column = column ∧ if loose then σ.indent = column else σ.indent < column
  | .map (_ :: _) => allowed ∧ c.column = column ∧ σ.indent < column
  | _ => σ.indent < c.column ∧ column = σ.indent.toNat + 2

theorem placed_inner (hindent : σ.indent = column) (hcolumn : c.column = column + 2) (t : Tree) :
    Placed false (column + 2) true c σ t := by
  unfold Placed
  split
  · exact ⟨rfl, hcolumn, by simp; omega⟩
  · exact ⟨rfl, hcolumn, by omega⟩
  · omega

-- A tree is scanned from the start of its text to where the text goes on.
def Scans (t : Tree) : Prop :=
  ∀ ⦃loose : Bool⦄ ⦃column n : Nat⦄ ⦃allowed : Bool⦄ ⦃c : Cursor⦄ ⦃σ : Blocks⦄ ⦃x : List Char⦄ ⦃ts : List Token⦄,
    Placed loose column allowed c σ t → c.rest = block column t ++ (List.replicate n ' ' ++ x) → Below n x σ.indent →
      Continues n x (σ.add (tokensOf loose t)) ts → Resumes (ready allowed c σ) ts

theorem Plain.starts {s : List Char} (h : Plain s) (r : List Char) : ∃ a t, s ++ r = a :: t ∧ StartsToken a := by
  obtain ⟨a, t, rfl, ha⟩ := h.opens
  exact ⟨a, t ++ r, rfl, ha.token⟩

theorem starts_stringLine (column : Nat) (s : List Char) : ∃ a r, stringLine column s = a :: r ∧ StartsToken a := by
  rw [stringLine]
  cases hstyle : styleOf s with
  | plain => exact (plain_of_styleOf hstyle).2.starts _
  | single => exact ⟨'\'', _, rfl, by decide⟩
  | double => exact ⟨'"', _, rfl, by decide⟩
  | literal => exact ⟨'|', _, rfl, by decide⟩

theorem starts_fieldLead (column : Nat) (key : String) (t : Tree) :
    ∃ a r, (fieldLead column key t).1 = a :: r ∧ StartsToken a := by
  rw [fieldLead]
  split
  · obtain ⟨a, r, heq, ha⟩ := starts_simpleKey key.toList
    exact ⟨a, r ++ ':' :: valueLead column t, by rw [heq]; rfl, ha⟩
  · exact ⟨'?', _, rfl, by decide⟩

theorem starts_block (hfree : t.floatFree) (column : Nat) : ∃ a r, block column t = a :: r ∧ StartsToken a := by
  cases t with
  | null => exact ⟨'n', _, rfl, by decide⟩
  | bool b => cases b <;> exact ⟨_, _, rfl, by decide⟩
  | int n => exact (plain_decimal n.toInt).starts _
  | float x => cases hfree
  | string s => exact starts_stringLine column s.toList
  | seq items =>
      cases items with
      | nil => exact ⟨'[', _, rfl, by decide⟩
      | cons t rest => exact ⟨'-', _, rfl, by decide⟩
  | map fields =>
      cases fields with
      | nil => exact ⟨'\x7b', _, rfl, by decide⟩
      | cons field rest =>
          obtain ⟨key, t⟩ := field
          obtain ⟨a, r, heq, ha⟩ := starts_fieldLead column key t
          exact ⟨a, _, by rw [block, heq]; rfl, ha⟩

theorem Below.mono {i j : Int} (h : Below n x i) (hle : i ≤ j) : Below n x j :=
  h.imp_right fun ⟨hstarts, hn⟩ => ⟨hstarts, by omega⟩

/-! ### Items -/

theorem Scans.item (h : Scans t) (hfree : t.floatFree) (hindent : σ.indent ≤ column) (hcolumn : c.column = column)
    (hrest : c.rest = '-' :: ' ' :: (block (column + 2) t ++ (List.replicate n ' ' ++ x))) (hbelow : Below n x column)
    (hafter : Continues n x ((σ.openAt column .blockSequence).add (.entry :: tokensOf false t)) ts) :
    Resumes (ready true c σ) ts := by
  obtain ⟨a, r, hblock, ha⟩ := starts_block hfree (column + 2)
  have hindent' : (σ.openAt column .blockSequence).indent = column := Blocks.indent_openAt hindent
  have hnext : (c.skip 2).column = column + 2 := by
    rw [← hcolumn]
    exact column_skip_inline (s := ['-', ' ']) hrest (by simp [isLineEnd])
  refine Resumes.entry ?_ hrest (.inr ⟨a, _, by rw [hblock]; rfl, ha⟩) (by omega)
  rw [hcolumn]
  refine h (placed_inner hindent' hnext t) (rest_skip (s := ['-', ' ']) hrest) ?_ ?_
  · rwa [Blocks.indent_add, hindent']
  · rwa [Blocks.add_add]

-- The text goes on with the other items or with what stands after all of them.
theorem continues_items {items : List Tree} (hscans : ∀ t ∈ items, Scans t) (hfree : ∀ t ∈ items, t.floatFree)
    (hindent : σ.indent = column) (hbelow : Below n x column) (h : Continues n x (σ.add (itemTokens items)) ts) :
    ∃ m y, itemLines column items ++ (List.replicate n ' ' ++ x) = List.replicate m ' ' ++ y ∧
      Below m y column ∧ Continues m y σ ts := by
  induction items generalizing σ with
  | nil => exact ⟨n, x, rfl, hbelow, h⟩
  | cons t rest ih =>
      obtain ⟨ht, hrest⟩ := List.forall_mem_cons.mp hscans
      obtain ⟨htfree, hrestfree⟩ := List.forall_mem_cons.mp hfree
      have hafter : Continues n x ((σ.add (.entry :: tokensOf false t)).add (itemTokens rest)) ts := by
        rwa [Blocks.add_add]
      have hindent' : (σ.add (.entry :: tokensOf false t)).indent = column := hindent
      obtain ⟨m, y, heq, hbelow', hcontinues⟩ := ih hrest hrestfree hindent' hafter
      refine ⟨column, '-' :: ' ' :: (block (column + 2) t ++ (List.replicate m ' ' ++ y)), ?_, ?_, ?_⟩
      · rw [itemLines, ← heq]
        simp [indentation]
      · exact .inr ⟨⟨'-', _, rfl, by decide⟩, Int.le_refl _⟩
      · intro c hc hcolumn
        rw [Blocks.close_of_le (by omega)]
        refine ht.item htfree (by omega) hcolumn hc hbelow' ?_
        rwa [Blocks.openAt_of_le (by omega)]

/-! ### Fields -/

-- The value of a simple key stands on a line of its own or in that of the key.
theorem valueLead_cases (column : Nat) (v : Tree) :
    (∃ m, valueLead column v = '\n' :: List.replicate m ' ' ∧ column ≤ m ∧
      ∀ (d : Cursor) (σ : Blocks), σ.indent = column → d.column = m → Placed true (valueColumn column v) true d σ v) ∨
    valueLead column v = [' '] ∧
      ∀ (d : Cursor) (σ : Blocks), σ.indent = column → column < d.column →
        Placed true (valueColumn column v) false d σ v := by
  have hleaf {d : Cursor} {σ : Blocks} (hindent : σ.indent = column) (hcolumn : column < d.column) :
      σ.indent < d.column ∧ column + 2 = σ.indent.toNat + 2 := by omega
  cases v with
  | null | bool | int | float | string => exact .inr ⟨rfl, fun d σ => hleaf⟩
  | seq items =>
      cases items with
      | nil => exact .inr ⟨rfl, fun d σ => hleaf⟩
      | cons t rest => exact .inl ⟨column, rfl, Nat.le_refl _, fun d σ hindent hcolumn => ⟨rfl, hcolumn, hindent⟩⟩
  | map fields =>
      cases fields with
      | nil => exact .inr ⟨rfl, fun d σ => hleaf⟩
      | cons field rest =>
          refine .inl ⟨column + 2, rfl, by omega, fun d σ hindent hcolumn => ⟨rfl, hcolumn, ?_⟩⟩
          have hinner : valueColumn column (.map (field :: rest)) = column + 2 := rfl
          omega

-- What is left to scan after a key is its value.
theorem Resumes.field {key : String} {v : Tree} (hfree : v.floatFree) (hindent : σ.indent ≤ column)
    (hcolumn : c.column = column)
    (hrest : c.rest = (fieldLead column key v).1 ++ (block (fieldLead column key v).2 v ++ r))
    (h : ∀ {d : Cursor} {allowed : Bool}, d.rest = block (fieldLead column key v).2 v ++ r →
      Placed (isSimpleKey key) (fieldLead column key v).2 allowed d (σ.keyed column key) v →
        Resumes (ready allowed d (σ.keyed column key)) ts) : Resumes (ready true c σ) ts := by
  obtain ⟨a, w, hblock, ha⟩ := starts_block hfree (fieldLead column key v).2
  have hvalue : AtToken (block (fieldLead column key v).2 v ++ r) := .inr ⟨a, w ++ r, by rw [hblock]; rfl, ha⟩
  have hkeyed : (σ.keyed column key).indent = column := Blocks.indent_keyed hindent
  rw [fieldLead] at hrest hvalue h
  subst hcolumn
  split at hrest
  next hkey =>
    simp only [if_pos hkey] at hvalue h
    rcases valueLead_cases c.column v with ⟨m, hlead, hm, hplaced⟩ | ⟨hlead, hplaced⟩
    · refine Resumes.shortKey_line (fun e he hcolumn => h he ?_) hkey (by simpa [hlead] using hrest) hvalue hindent hm
      rw [hkey]
      exact hplaced e _ hkeyed hcolumn
    · refine Resumes.shortKey_inline (fun e he hcolumn => h he ?_) hkey (by simpa [hlead] using hrest) hvalue hindent
      rw [hkey]
      exact hplaced e _ hkeyed hcolumn
  next hkey =>
    simp only [if_neg hkey] at hvalue h
    have hindent' : ((σ.openAt c.column .blockMapping).add [.key]).indent = c.column := Blocks.indent_openAt hindent
    have hopen : c.rest = '?' :: ' ' :: (stringLine (c.column + 2) key.toList ++
        (List.replicate c.column ' ' ++ (':' :: ' ' :: (block (c.column + 2) v ++ r)))) := by
      simpa [indentation] using hrest
    have hcolumns {d : Cursor} {o : Char} {y : List Char} (ho : isLineEnd o = false) (hd : d.rest = o :: ' ' :: y) :
        (d.skip 2).column = d.column + 2 :=
      column_skip_inline (s := [o, ' ']) hd (by simpa using ⟨ho, rfl⟩)
    obtain ⟨b, u, hstring, hb⟩ := starts_stringLine (c.column + 2) key.toList
    refine Resumes.question ?_ hopen (.inr ⟨b, _, by rw [hstring]; rfl, hb⟩) hindent
    have hbelow : Below c.column (':' :: ' ' :: (block (c.column + 2) v ++ r))
        ((σ.openAt c.column .blockMapping).add [.key]).indent := .inr ⟨⟨':', _, rfl, by decide⟩, by omega⟩
    have hskip := hcolumns rfl hopen
    refine Continues.stringLine (fun d hd hcolumn => ?_) (rest_skip (s := ['?', ' ']) hopen) hbelow (by omega) (by omega)
    rw [Blocks.close_of_le (by rw [Blocks.indent_add]; omega)]
    refine Resumes.colon ?_ hd hvalue (by rw [Blocks.indent_add]; omega)
    rw [Blocks.add_add, Blocks.add_add]
    have hplaced := placed_inner hkeyed (by rw [hcolumns rfl hd, hcolumn]) v
    refine h (rest_skip (s := [':', ' ']) hd) ?_
    rwa [Bool.eq_false_iff.mpr hkey]

theorem Scans.field {key : String} (h : Scans t) (hfree : t.floatFree) (hindent : σ.indent ≤ column)
    (hcolumn : c.column = column)
    (hrest : c.rest = (fieldLead column key t).1 ++
      (block (fieldLead column key t).2 t ++ (List.replicate n ' ' ++ x))) (hbelow : Below n x column)
    (hafter : Continues n x ((σ.openAt column .blockMapping).add
      (.key :: stringToken key.toList :: .value :: tokensOf (isSimpleKey key) t)) ts) :
    Resumes (ready true c σ) ts := by
  have hkeyed : (σ.keyed column key).indent = column := Blocks.indent_keyed hindent
  refine Resumes.field hfree hindent hcolumn hrest fun hd hplaced => h hplaced hd ?_ ?_
  · rwa [hkeyed]
  · rwa [Blocks.keyed, Blocks.add_add]

-- The text goes on with the other fields or with what stands after all of them.
theorem continues_fields {fields : List (String × Tree)} (hscans : ∀ field ∈ fields, Scans field.2)
    (hfree : ∀ field ∈ fields, field.2.floatFree) (hindent : σ.indent = column) (hbelow : Below n x column)
    (h : Continues n x (σ.add (fieldTokens fields)) ts) :
    ∃ m y, fieldLines column fields ++ (List.replicate n ' ' ++ x) = List.replicate m ' ' ++ y ∧
      Below m y column ∧ Continues m y σ ts := by
  induction fields generalizing σ with
  | nil => exact ⟨n, x, rfl, hbelow, h⟩
  | cons field rest ih =>
      obtain ⟨key, t⟩ := field
      obtain ⟨ht, hrest⟩ := List.forall_mem_cons.mp hscans
      obtain ⟨htfree, hrestfree⟩ := List.forall_mem_cons.mp hfree
      let tokens := .key :: stringToken key.toList :: .value :: tokensOf (isSimpleKey key) t
      have hafter : Continues n x ((σ.add tokens).add (fieldTokens rest)) ts := by rwa [Blocks.add_add]
      have hindent' : (σ.add tokens).indent = column := hindent
      obtain ⟨m, y, heq, hbelow', hcontinues⟩ := ih hrest hrestfree hindent' hafter
      refine ⟨column, (fieldLead column key t).1 ++ (block (fieldLead column key t).2 t ++ (List.replicate m ' ' ++ y)),
        ?_, ?_, ?_⟩
      · rw [fieldLines, ← heq]
        simp [indentation]
      · obtain ⟨a, r, hlead, ha⟩ := starts_fieldLead column key t
        exact .inr ⟨⟨a, _, by rw [hlead]; rfl, ha⟩, Int.le_refl _⟩
      · intro c hc hcolumn
        rw [Blocks.close_of_le (by omega)]
        refine ht.field htfree (by omega) hcolumn hc hbelow' ?_
        rwa [Blocks.openAt_of_le (by omega)]

/-! ### Trees -/

theorem scans_plain {s : List Char} (hblock : ∀ column, block column t = s ++ ['\n'])
    (htokens : ∀ loose, tokensOf loose t = [.scalar s true]) (hs : Plain s)
    (hplaced : ∀ loose column allowed c σ, Placed loose column allowed c σ t → σ.indent < c.column) : Scans t := by
  intro loose column n allowed c σ x ts hplace hrest hbelow hafter
  rw [htokens] at hafter
  exact hafter.plainLine hs (by simpa [hblock] using hrest) hbelow (hplaced _ _ _ _ _ hplace)

theorem scans_seq {items : List Tree} (hscans : ∀ t ∈ items, Scans t) (hfree : ∀ t ∈ items, t.floatFree) :
    Scans (.seq items) := by
  intro loose column n allowed c σ x ts hplace hrest hbelow hafter
  cases items with
  | nil => exact hafter.emptyLine (.inl ⟨rfl, rfl, rfl, rfl⟩) hrest hbelow hplace.1
  | cons t rest =>
      obtain ⟨rfl, hcolumn, hindent⟩ := hplace
      obtain ⟨ht, hscans⟩ := List.forall_mem_cons.mp hscans
      obtain ⟨htfree, hfree⟩ := List.forall_mem_cons.mp hfree
      have hle : σ.indent ≤ column := by
        split at hindent <;> omega
      have hitems : Continues n x ((σ.openAt column .blockSequence).add (itemTokens (t :: rest))) ts := by
        cases loose with
        | true =>
            rw [Blocks.openAt_of_le (Int.le_of_eq hindent.symm)]
            exact hafter
        | false => exact Continues.openAt hbelow hindent hafter
      have hopened : ((σ.openAt column .blockSequence).add (.entry :: tokensOf false t)).indent = column :=
        Blocks.indent_openAt hle
      have hfirst : Continues n x (((σ.openAt column .blockSequence).add (.entry :: tokensOf false t)).add
          (itemTokens rest)) ts := by
        rwa [Blocks.add_add]
      obtain ⟨m, y, heq, hbelow', hcontinues⟩ := continues_items hscans hfree hopened (hbelow.mono hle) hfirst
      refine ht.item htfree hle hcolumn ?_ hbelow' hcontinues
      rw [hrest, block, ← heq]
      simp

theorem scans_map {fields : List (String × Tree)} (hscans : ∀ field ∈ fields, Scans field.2)
    (hfree : ∀ field ∈ fields, field.2.floatFree) : Scans (.map fields) := by
  intro loose column n allowed c σ x ts hplace hrest hbelow hafter
  cases fields with
  | nil => exact hafter.emptyLine (.inr ⟨rfl, rfl, rfl, rfl⟩) hrest hbelow hplace.1
  | cons field rest =>
      obtain ⟨key, t⟩ := field
      obtain ⟨rfl, hcolumn, hindent⟩ := hplace
      obtain ⟨ht, hscans⟩ := List.forall_mem_cons.mp hscans
      obtain ⟨htfree, hfree⟩ := List.forall_mem_cons.mp hfree
      have hle := Int.le_of_lt hindent
      let tokens := .key :: stringToken key.toList :: .value :: tokensOf (isSimpleKey key) t
      have hfields : Continues n x ((σ.openAt column .blockMapping).add (tokens ++ fieldTokens rest)) ts :=
        Continues.openAt hbelow hindent hafter
      have hopened : ((σ.openAt column .blockMapping).add tokens).indent = column := Blocks.indent_openAt hle
      rw [← Blocks.add_add] at hfields
      obtain ⟨m, y, heq, hbelow', hcontinues⟩ := continues_fields hscans hfree hopened (hbelow.mono hle) hfields
      refine ht.field htfree hle hcolumn ?_ hbelow' hcontinues
      rw [hrest, block, ← heq]
      simp

theorem scans_of_floatFree (hfree : t.floatFree) : Scans t := by
  induction t with
  | null =>
      exact scans_plain (fun _ => rfl) (fun _ => rfl) (plain_of_plainAllowed (by decide) (by decide))
        fun _ _ _ _ _ => And.left
  | bool b =>
      cases b <;>
        exact scans_plain (fun _ => rfl) (fun _ => rfl) (plain_of_plainAllowed (by decide) (by decide))
          fun _ _ _ _ _ => And.left
  | int n =>
      exact scans_plain (fun _ => rfl) (fun _ => rfl) (plain_decimal n.toInt) fun _ _ _ _ _ => And.left
  | float x => cases hfree
  | string s =>
      intro loose column n allowed c σ x ts hplace hrest hbelow hafter
      exact hafter.stringLine hrest hbelow hplace.1 hplace.2
  | seq items ih =>
      have hfree := Tree.floatFree_seq_iff.mp hfree
      exact scans_seq (fun t ht => ih t ht (hfree t ht)) hfree
  | map fields ih =>
      have hfree := Tree.floatFree_map_iff.mp hfree
      exact scans_map (fun field hfield => ih field hfield (hfree field hfield)) hfree

end ScraperTimeline.Yaml
