import ScraperTimeline.Proofs.Yaml.Blocks
import ScraperTimeline.Proofs.Yaml.Literal
import Mathlib.Data.String.Basic

/-!
The tokens of what is written for one node or between nodes: dashes, keys with their colons, and scalars with the
ends of their lines.
-/
namespace ScraperTimeline.Yaml
open Cursor

variable {c : Cursor} {r s u x : List Char} {a : Char} {column n : Nat} {σ : Blocks} {k : Option KeyStart}
  {allowed : Bool} {ts : List Token}

/-! ### Indicators -/

theorem isDocumentMark_of_ne {mark : Char} (h : a ≠ mark) (r : List Char) : isDocumentMark mark (a :: r) = false := by
  rcases r with _ | ⟨b, _ | ⟨c, r⟩⟩
  · rfl
  · rfl
  · simp [isDocumentMark, h]

theorem isDocumentMark_of_second_ne {mark b : Char} (h : b ≠ mark) (r : List Char) :
    isDocumentMark mark (a :: b :: r) = false := by
  cases r with
  | nil => rfl
  | cons c r => simp [isDocumentMark, h]

theorem insert_scanning (t : Token) (us : List Token) :
    (scanning k allowed c (σ.add us)).insert σ.tokens.length t = scanning k allowed c ((σ.add [t]).add us) := by
  simp [Scan.insert, scanning, Blocks.add]

theorem openBlock_scanning (column : Nat) (t : Token) (us : List Token) :
    (scanning k allowed c (σ.add us)).openBlock column σ.tokens.length t =
      scanning k allowed c ((σ.openAt column t).add us) := by
  rw [Scan.openBlock, Blocks.openAt, inFlow_scanning, indent_scanning, Blocks.indent_add, Bool.false_or]
  by_cases h : (column : Int) ≤ σ.indent
  · rw [if_pos h, if_pos (decide_eq_true h)]
  · rw [if_neg h, if_neg (by simpa using h)]
    simp [Scan.insert, scanning, Blocks.add]

theorem openBlock_ready (column : Nat) (t : Token) :
    (ready allowed c σ).openBlock column σ.tokens.length t = ready allowed c (σ.openAt column t) :=
  openBlock_scanning column t []

theorem settle?_inline (hx : AtToken x) (hrest : c.rest = ' ' :: x) (hcolumn : σ.indent ≤ c.column) :
    settle? (ready allowed c σ) = some (ready allowed c.next σ) := by
  rw [settle?_blanks (n := 1) hx hrest (by simp), Blocks.close_of_le (by omega)]
  rfl

-- After an indicator the text goes on in the line.
theorem Resumes.indicator {σ' : Blocks} (h : Resumes (ready allowed (c.skip 2) σ') ts)
    (htoken : (ready true c σ).token? = some (ready allowed c.next σ')) (hrest : c.rest = a :: ' ' :: r)
    (ha : isLineEnd a = false) (hr : AtToken r) (hcolumn : σ'.indent ≤ c.column) : Resumes (ready true c σ) ts := by
  have hnext := next_inline hrest ha
  have hafter : (c.skip 2).rest = r := rest_skip (s := [a, ' ']) hrest
  refine h.token htoken (settle?_inline hr (by rw [hnext]) (by rw [hnext]; simp; omega)) ?_
  rw [cursor_scanning, cursor_scanning, hafter, hrest, List.length_cons, List.length_cons]
  omega

-- An item of a sequence starts, the first with the sequence itself.
theorem Resumes.entry (h : Resumes (ready true (c.skip 2) ((σ.openAt c.column .blockSequence).add [.entry])) ts)
    (hrest : c.rest = '-' :: ' ' :: r) (hr : AtToken r) (hcolumn : σ.indent ≤ c.column) :
    Resumes (ready true c σ) ts := by
  have hentry : (ready true c σ).token? = Scan.entry? (ready true c σ) := by
    simp [Scan.token?, hrest, isDocumentMark_of_ne, isDocumentMark_of_second_ne, startsGap, isGap, isBlank]
  refine h.indicator ?_ hrest rfl hr (by simp [Blocks.indent_openAt hcolumn])
  rw [hentry, Scan.entry?]
  simp only [inFlow_scanning, keyAllowed_scanning, cursor_scanning, tokens_scanning, openBlock_ready]
  rfl

-- A key that does not fit before a colon starts, the first with the mapping itself.
theorem Resumes.question (h : Resumes (ready true (c.skip 2) ((σ.openAt c.column .blockMapping).add [.key])) ts)
    (hrest : c.rest = '?' :: ' ' :: r) (hr : AtToken r) (hcolumn : σ.indent ≤ c.column) :
    Resumes (ready true c σ) ts := by
  have hkey : (ready true c σ).token? = (ready true c σ).key? := by
    simp [Scan.token?, hrest, isDocumentMark_of_ne, startsGap, isGap, isBlank]
  refine h.indicator ?_ hrest rfl hr (by simp [Blocks.indent_openAt hcolumn])
  rw [hkey, Scan.key?]
  simp only [inFlow_scanning, keyAllowed_scanning, cursor_scanning, tokens_scanning, openBlock_ready]
  rfl

-- The value after such a key starts.
theorem Resumes.colon (h : Resumes (ready true (c.skip 2) (σ.add [.value])) ts) (hrest : c.rest = ':' :: ' ' :: r)
    (hr : AtToken r) (hcolumn : σ.indent = c.column) : Resumes (ready true c σ) ts := by
  have hvalue : (ready true c σ).token? = (ready true c σ).value? := by
    simp [Scan.token?, hrest, isDocumentMark_of_ne, startsGap, isGap, isBlank]
  refine h.indicator ?_ hrest rfl hr (by simp [hcolumn])
  rw [hvalue, Scan.value?]
  simp only [keys_scanning, inFlow_scanning, keyAllowed_scanning, cursor_scanning, tokens_scanning, openBlock_ready,
    Blocks.openAt_of_le (Int.le_of_eq hcolumn.symm)]
  rfl

/-! ### Scalars -/

-- The place of a key, which has to be one in the column of its block.
def keyStart (c : Cursor) (σ : Blocks) : KeyStart := ⟨σ.tokens.length, c.index, c.line, c.column, σ.indent = c.column⟩

def saved (allowed : Bool) (c : Cursor) (σ : Blocks) : Option KeyStart := if allowed then some (keyStart c σ) else none

-- A scalar has been read, which may be a key.
def scanned (k : Option KeyStart) (σ : Blocks) (plain : Bool) (z : Scanned) : Scan :=
  scanning k z.freshLine z.after (σ.add [.scalar z.text plain])

theorem saveKey?_ready : (ready allowed c σ).saveKey? = some (scanning (saved allowed c σ) allowed c σ) := by
  cases allowed <;> rfl

theorem plain?_ready : (ready allowed c σ).plain? =
    (plain? false (σ.indent + 1).toNat (c.rest.length + 1) [] [] c).map (scanned (saved allowed c σ) σ true) := by
  rw [Scan.plain?, saveKey?_ready]
  simp only [Option.bind_eq_bind, Option.bind_some, inFlow_scanning, indent_scanning, cursor_scanning]
  cases plain? false (σ.indent + 1).toNat (c.rest.length + 1) [] [] c <;> rfl

theorem quoted?_ready (single : Bool) : (ready allowed c σ).quoted? single =
    (quoted? single (c.rest.length + 1) [] c.next).map (scanned (saved allowed c σ) σ false) := by
  rw [Scan.quoted?, saveKey?_ready]
  simp only [Option.bind_eq_bind, Option.bind_some, cursor_scanning]
  cases quoted? single (c.rest.length + 1) [] c.next <;> rfl

theorem blockScalar?_ready (folded : Bool) : (ready allowed c σ).blockScalar? folded =
    (blockScalar? folded σ.indent c.next).map (scanned none σ false) := by
  show ((blockScalar? folded σ.indent c.next).bind _) = _
  cases blockScalar? folded σ.indent c.next <;> rfl

theorem isDocumentMark_append {mark : Char} (hs : [mark, mark, mark].isPrefixOf s = false) (ha : a ≠ mark)
    (r : List Char) : isDocumentMark mark (s ++ a :: r) = false := by
  rcases s with _ | ⟨b, _ | ⟨d, _ | ⟨e, s⟩⟩⟩
  · exact isDocumentMark_of_ne ha r
  · exact isDocumentMark_of_second_ne ha r
  · simp [isDocumentMark, ha]
  · have hne : ¬ (b = mark ∧ d = mark ∧ e = mark) := by
      rintro ⟨rfl, rfl, rfl⟩
      simp at hs
    simp only [List.cons_append, isDocumentMark, Bool.and_eq_false_iff, decide_eq_false_iff_not]
    tauto

theorem token?_plain (allowed : Bool) (σ : Blocks) (hs : Plain s) (ha : a ≠ '-' ∧ a ≠ '.')
    (hrest : c.rest = s ++ a :: r) :
    (ready allowed c σ).token? = (ready allowed c σ).plain? ∧ c.atDocumentMark = false := by
  have hdashes := isDocumentMark_append hs.dashes ha.1 r
  have hdots := isDocumentMark_append hs.dots ha.2 r
  have hmark : c.atDocumentMark = false := by simp [atDocumentMark, hrest, hdashes, hdots]
  refine ⟨?_, hmark⟩
  obtain ⟨b, t, rfl, hopens⟩ := hs.opens
  have hindicator := hopens.indicator
  simp only [openingIndicators, List.mem_cons, List.not_mem_nil, or_false, not_or] at hindicator
  have hfollows (h : b = '-' ∨ b = '?' ∨ b = ':') : startsGap (t ++ a :: r) = false :=
    startsGap_append (hopens.follows h) _
  have hstarts : startsPlain false b (t ++ a :: r) := by
    rw [startsPlain]
    by_cases hfollow : b = '-' ∨ b = '?' ∨ b = ':'
    · have hgap := hfollows hfollow
      have hblank : (t ++ a :: r).head?.any isBlank = false := by
        cases hhead : (t ++ a :: r).head? with
        | none => rfl
        | some d =>
            rw [startsGap, hhead, Option.all_some] at hgap
            exact (Bool.or_eq_false_iff.mp hgap).1
      rw [hgap, hblank]
      rcases hfollow with rfl | rfl | rfl <;> rfl
    · simp only [not_or] at hfollow
      simp [indicators, hopens.token.1, hindicator, hfollow]
  have hnoGap {d : Char} (hd : d = '-' ∨ d = '?' ∨ d = ':') : ¬ (b = d ∧ startsGap (t ++ a :: r)) := by
    rintro ⟨rfl, hgap⟩
    simp [hfollows hd] at hgap
  have hdash := hnoGap (.inl rfl)
  have hquestion := hnoGap (.inr (.inl rfl))
  have hcolon := hnoGap (.inr (.inr rfl))
  rw [List.cons_append] at hdashes hdots hrest
  rw [Scan.token?, cursor_scanning, hrest]
  simp [hdashes, hdots, hindicator, hstarts, hdash, hquestion, hcolon]

theorem token?_quoted (allowed : Bool) (σ : Blocks) {single : Bool} {b : List Char} (hbody : Body single s b)
    (hrest : c.rest = quote single :: (b ++ quote single :: r)) (hr : r.head? ≠ some (quote single)) :
    (ready allowed c σ).token? = some (scanned (saved allowed c σ) σ false ⟨s, c.skip (b.length + 2), false⟩) := by
  have htoken : (ready allowed c σ).token? = (ready allowed c σ).quoted? single := by
    rw [Scan.token?, cursor_scanning, hrest]
    cases single <;> simp [quote, isDocumentMark_of_ne]
  rw [htoken, quoted?_ready, quoted?_eq hbody hr hrest, Option.map_some]

theorem token?_literal (allowed : Bool) (hs : literalAllowed s) (hline : '\n' ∈ s)
    (hindent : column = σ.indent.toNat + 2) (hbelow : Below n x σ.indent) (hrest : c.rest = literal column s ++ (List.replicate n ' ' ++ x)) :
    (ready allowed c σ).token? =
      some (scanned none σ false ⟨s, c.skip (literal column s ++ List.replicate n ' ').length, true⟩) := by
  have htoken : (ready allowed c σ).token? = (ready allowed c σ).blockScalar? false := by
    rw [Scan.token?, cursor_scanning, hrest, literal_eq]
    simp [isDocumentMark_of_ne]
  rw [htoken, blockScalar?_ready, blockScalar?_eq hs hline hindent hbelow hrest, Option.map_some]

/-! ### Styles -/

theorem plain_of_styleOf (h : styleOf s = .plain) : readsAsString s ∧ Plain s := by
  rw [styleOf] at h
  split at h
  · split at h <;> cases h
  · split at h
    next hplain =>
      obtain ⟨hreads, hallowed⟩ := Bool.and_eq_true_iff.mp hplain
      refine ⟨hreads, plain_of_plainAllowed ?_ hallowed⟩
      rintro rfl
      exact absurd hreads (by decide)
    next => split at h <;> cases h

theorem single_of_styleOf (h : styleOf s = .single) : Single s := by
  rw [styleOf] at h
  split at h
  · split at h <;> cases h
  next hline =>
    split at h
    · cases h
    · split at h
      next hallowed => exact single_of_singleAllowed hline hallowed
      next => cases h

theorem literal_of_styleOf (h : styleOf s = .literal) : '\n' ∈ s ∧ literalAllowed s := by
  rw [styleOf] at h
  split at h
  next hline =>
    split at h
    next hallowed => exact ⟨hline, hallowed⟩
    next => cases h
  · split at h
    · cases h
    · split at h <;> cases h

theorem singleQuoted_eq (column : Nat) (s : List Char) :
    singleQuoted column s = '\'' :: (singleBody column s ++ ['\'']) := by
  simp only [singleQuoted, singleBody, List.cons_append, List.append_assoc]
  rfl

theorem token?_single (allowed : Bool) (σ : Blocks) (hs : Single s)
    (hcolumn : 0 < column ∨ ∀ a ∈ s, isSeparator a = false) (hrest : c.rest = singleQuoted column s ++ r) (hr : r.head? ≠ some '\'') :
    (ready allowed c σ).token? =
      some (scanned (saved allowed c σ) σ false ⟨s, c.skip (singleQuoted column s).length, false⟩) := by
  rw [singleQuoted_eq] at hrest ⊢
  have hquoted := token?_quoted allowed σ (body_single hs hcolumn) (by simpa [quote] using hrest) hr
  simpa using hquoted

theorem token?_double (allowed : Bool) (σ : Blocks) (hrest : c.rest = doubleQuoted s ++ r) (hr : r.head? ≠ some '"') :
    (ready allowed c σ).token? =
      some (scanned (saved allowed c σ) σ false ⟨s, c.skip (doubleQuoted s).length, false⟩) := by
  have hquoted := token?_quoted allowed σ (body_double s) (by simpa [doubleQuoted, quote] using hrest) hr
  simpa [doubleQuoted] using hquoted

/-! ### Keys -/

-- The token of a string in its style.
def stringToken (s : List Char) : Token := .scalar s (styleOf s = .plain)

-- What has been scanned up to the value of a key.
def Blocks.keyed (column : Nat) (key : String) (σ : Blocks) : Blocks :=
  (σ.openAt column .blockMapping).add [.key, stringToken key.toList, .value]

theorem Blocks.indent_keyed {key : String} (h : σ.indent ≤ column) : (σ.keyed column key).indent = column := by
  rw [keyed, indent_add, indent_openAt h]

theorem length_le_utf8ByteSize (s : String) : s.toList.length ≤ s.utf8ByteSize := by
  rw [← String.ofList_toList (s := s), String.utf8ByteSize_ofList, String.toList_ofList]
  induction s.toList with
  | nil => exact Nat.le_refl _
  | cons a t ih =>
      have := a.utf8Size_pos
      rw [String.utf8Len_cons, List.length_cons]
      omega

theorem isPrintable_of_large (h : 0xFFFF < a.toNat) : isPrintable a ∧ isBreak a = false ∧ a ≠ '"' ∧ a ≠ '\\' := by
  have hne (b : Char) (hb : b.toNat ≤ 0xFFFF) : a ≠ b := by
    rintro rfl
    omega
  have hbreak : isBreak a = false := by
    simp [isBreak, hne '\n' (by decide), hne '\r' (by decide), hne '\u0085' (by decide), hne '\u2028' (by decide),
      hne '\u2029' (by decide)]
  exact ⟨by simp [isPrintable, show 65536 ≤ a.toNat from h], hbreak, hne _ (by decide), hne _ (by decide)⟩

-- Only characters of at most four digits are escaped with a number.
theorem length_escaped_le (a : Char) : (escaped a).length ≤ 6 := by
  rw [escaped]
  split
  next => exact (by decide : 1 ≤ 6)
  next h =>
    rw [List.length_cons]
    split
    next => exact (by decide : 2 ≤ 6)
    next =>
      split
      · rw [List.length_cons, length_upperHex (by decide) (by omega)]
        decide
      · split
        · rw [List.length_cons, length_upperHex (by decide) (by omega)]
        · obtain ⟨hprintable, hbreak, hquote, hslash⟩ := isPrintable_of_large (a := a) (by omega)
          exact absurd (by simp [hprintable, hbreak, hquote, hslash]) h

theorem length_flatMap_le {write : Char → List Char} {m : Nat} (hwrite : ∀ a, (write a).length ≤ m) (s : List Char) :
    (s.flatMap write).length ≤ s.length * m := by
  induction s with
  | nil => exact Nat.zero_le _
  | cons a s ih =>
      have := hwrite a
      rw [List.flatMap_cons, List.length_append, List.length_cons, Nat.succ_mul]
      omega

theorem isLineEnd_eq_false (h : isBreak a = false) : isLineEnd a = false := by
  simp only [isBreak, isLineEnd, Bool.or_eq_false_iff] at h ⊢
  exact ⟨⟨h.1.1.1.1, h.1.2⟩, h.2⟩

theorem simpleKey_cases (hs : ∀ a ∈ s, isBreak a = false) :
    simpleKey s = s ∨ simpleKey s = '\'' :: (s.flatMap doubled ++ ['\'']) ∨
      simpleKey s = '"' :: (s.flatMap escaped ++ ['"']) := by
  have hbody : singleBody 0 s = s.flatMap doubled := by
    have hbody : singleBody 0 (s ++ []) = s.flatMap doubled ++ singleBody 0 [] := singleBody_append hs
    rwa [List.append_nil, show singleBody 0 [] = [] from rfl, List.append_nil] at hbody
  rw [simpleKey, singleQuoted_eq, hbody]
  split
  · exact .inl rfl
  · exact .inr (.inl rfl)
  · exact .inr (.inr rfl)

theorem starts_simpleKey (s : List Char) : ∃ a t, simpleKey s = a :: t ∧ StartsToken a := by
  rw [simpleKey]
  cases hstyle : styleOf s with
  | plain =>
      obtain ⟨a, t, heq, hopens⟩ := (plain_of_styleOf hstyle).2.opens
      exact ⟨a, t, heq, hopens.token⟩
  | single => exact ⟨_, _, singleQuoted_eq 0 s, by decide⟩
  | double | literal => exact ⟨'"', s.flatMap escaped ++ ['"'], rfl, by decide⟩

theorem length_doubled_le (a : Char) : (doubled a).length ≤ 2 := by
  rw [doubled]
  split
  · exact (by decide : 2 ≤ 2)
  · exact (by decide : 1 ≤ 2)

theorem inline_doubled (ha : isLineEnd a = false) : ∀ b ∈ doubled a, isLineEnd b = false := by
  rw [doubled]
  split
  · simp [isLineEnd]
  · exact List.forall_mem_singleton.mpr ha

-- Quotes around a text of a simple key's length leave it on one line and short.
theorem short_quoted {q : Char} {write : Char → List Char} {m : Nat} (hs : s.length ≤ 128) (hq : isLineEnd q = false)
    (hwrite : ∀ a ∈ s, ∀ b ∈ write a, isLineEnd b = false) (hm : ∀ a, (write a).length ≤ m) (hle : m ≤ 6) :
    (∀ a ∈ q :: (s.flatMap write ++ [q]), isLineEnd a = false) ∧ (q :: (s.flatMap write ++ [q])).length ≤ 1024 := by
  have hbody := length_flatMap_le hm s
  have hmul := Nat.mul_le_mul hs hle
  constructor
  · simp only [List.mem_cons, List.mem_append, List.mem_flatMap, List.not_mem_nil, or_false]
    rintro b (rfl | ⟨a, ha, hb⟩ | rfl)
    · exact hq
    · exact hwrite a ha b hb
    · exact hq
  · simp only [List.length_cons, List.length_append, List.length_nil]
    omega

-- What stands before the colon is in one line and not too long for a key.
theorem simpleKey_short {key : String} (h : isSimpleKey key) :
    (∀ a ∈ simpleKey key.toList, isLineEnd a = false) ∧ (simpleKey key.toList).length ≤ 1024 := by
  obtain ⟨hbreaks, hbytes⟩ := Bool.and_eq_true_iff.mp h
  have hlength := (length_le_utf8ByteSize key).trans (of_decide_eq_true hbytes)
  have hs : ∀ a ∈ key.toList, isBreak a = false := by simpa using hbreaks
  have hinline : ∀ a ∈ key.toList, isLineEnd a = false := fun a ha => isLineEnd_eq_false (hs a ha)
  rcases simpleKey_cases hs with heq | heq | heq <;> rw [heq]
  · exact ⟨hinline, by omega⟩
  · exact short_quoted hlength rfl (fun a ha => inline_doubled (hinline a ha)) length_doubled_le (by decide)
  · refine short_quoted hlength rfl (fun a _ b hb => ?_) length_escaped_le (by decide)
    by_cases hblank : a = ' '
    · subst hblank
      obtain rfl : b = ' ' := List.mem_singleton.mp hb
      rfl
    · exact (inline_escaped hblank).2 b hb

-- A key without breaks is read up to its colon.
theorem token?_simpleKey (hs : ∀ a ∈ s, isBreak a = false) (hrest : c.rest = simpleKey s ++ ':' :: r)
    (hr : startsGap r) (hcolumn : σ.indent ≤ c.column) :
    (ready true c σ).token? =
      some (scanned (saved true c σ) σ (styleOf s = .plain) ⟨s, c.skip (simpleKey s).length, false⟩) := by
  rw [simpleKey] at hrest ⊢
  cases hstyle : styleOf s with
  | plain =>
      rw [hstyle] at hrest
      have hplain := (plain_of_styleOf hstyle).2
      obtain ⟨htoken, hmark⟩ := token?_plain true σ hplain (by decide) hrest
      rw [htoken, plain?_ready, plain?_key hplain hrest hr hmark (by omega)]
      rfl
  | single =>
      rw [hstyle] at hrest
      have hseparators : ∀ a ∈ s, isSeparator a = false := fun a ha => Bool.eq_false_iff.mpr fun hsep =>
        Bool.eq_false_iff.mp (hs a ha) (isBreak_of_isSeparator hsep)
      exact token?_single _ _ (single_of_styleOf hstyle) (.inr hseparators) hrest (by simp)
  | double | literal =>
      rw [hstyle] at hrest
      exact token?_double _ _ hrest (by simp)

-- A key has been read, up to the colon.
def keyRead (c d : Cursor) (key : String) (σ : Blocks) : Scan :=
  scanned (saved true c σ) σ (styleOf key.toList = .plain) ⟨key.toList, d, false⟩

-- At the colon the scalar before it becomes a key, the first one opens the mapping.
theorem token?_colon {d : Cursor} {key : String} (hrest : d.rest = ':' :: r) (hr : startsGap r) :
    (keyRead c d key σ).token? = some (ready false d.next (σ.keyed c.column key)) := by
  have hvalue : (keyRead c d key σ).token? = (keyRead c d key σ).value? := by
    simp [keyRead, scanned, Scan.token?, hrest, isDocumentMark_of_ne, hr]
  have hopened : ((keyRead c d key σ).insert σ.tokens.length .key).openBlock c.column σ.tokens.length .blockMapping =
      scanning (saved true c σ) false d ((σ.openAt c.column .blockMapping).add [.key, stringToken key.toList]) := by
    simp only [keyRead, scanned, insert_scanning, Blocks.add_add]
    exact openBlock_scanning c.column .blockMapping _
  have hkey : (keyRead c d key σ).value? = some
      { (((keyRead c d key σ).insert σ.tokens.length .key).openBlock c.column σ.tokens.length
          .blockMapping).indicator 1 .value with
        keys := [none], keyAllowed := false } := rfl
  rw [hvalue, hkey, hopened]
  rfl

-- A key before a colon starts, the first with the mapping itself.
theorem Resumes.shortKey {key : String} {d : Cursor} (h : Resumes (ready allowed d (σ.keyed c.column key)) ts)
    (hkey : isSimpleKey key) (hrest : c.rest = simpleKey key.toList ++ ':' :: r) (hr : startsGap r)
    (hcolumn : σ.indent ≤ c.column)
    (hsettle : settle? (ready false (c.skip ((simpleKey key.toList).length + 1)) (σ.keyed c.column key)) =
      some (ready allowed d (σ.keyed c.column key)))
    (hshorter : d.rest.length ≤ r.length) : Resumes (ready true c σ) ts := by
  obtain ⟨hinline, hlength⟩ := simpleKey_short hkey
  have hbreaks : ∀ a ∈ key.toList, isBreak a = false := by simpa using (Bool.and_eq_true_iff.mp hkey).1
  have hend := skip_inline hrest hinline
  have hafter : (c.skip (simpleKey key.toList).length).rest = ':' :: r := by rw [hend]
  have hkept : ∀ start ∈ saved true c σ, Scan.isStale (c.skip (simpleKey key.toList).length) start = false := by
    intro start hstart
    obtain rfl := Option.some.inj hstart
    rw [hend]
    simp [Scan.isStale, keyStart]
    omega
  have hclose : (σ.add [stringToken key.toList]).close ((c.skip (simpleKey key.toList).length).column + (0 : Nat)) =
      σ.add [stringToken key.toList] := by
    refine Blocks.close_of_le ?_
    rw [column_skip_inline hrest hinline, Blocks.indent_add]
    omega
  have hplace : settle? (keyRead c (c.skip (simpleKey key.toList).length) key σ) =
      some (keyRead c (c.skip (simpleKey key.toList).length) key σ) := by
    rw [keyRead, scanned, settle?_blanks (n := 0) (.inr ⟨':', r, rfl, by decide⟩) hafter hkept]
    exact congrArg (fun σ => some (scanning _ false _ σ)) hclose
  have hvalue : Resumes (keyRead c (c.skip (simpleKey key.toList).length) key σ) ts := by
    have hnext : (c.skip (simpleKey key.toList).length).next = c.skip ((simpleKey key.toList).length + 1) :=
      (skip_add _ 1 c).symm
    refine h.token (token?_colon hafter hr) (hnext ▸ hsettle) ?_
    change d.rest.length < (c.skip _).rest.length
    rw [hafter]
    exact Nat.lt_succ_of_le hshorter
  refine hvalue.token (token?_simpleKey hbreaks hrest hr hcolumn) hplace ?_
  change (c.skip _).rest.length < c.rest.length
  obtain ⟨a, t, heq, -⟩ := starts_simpleKey key.toList
  rw [hafter, hrest, heq]
  simp only [List.length_append, List.length_cons]
  omega

-- The value goes on in the line of its key.
theorem Resumes.shortKey_inline {key : String} {y : List Char}
    (h : ∀ e : Cursor, e.rest = y → c.column < e.column → Resumes (ready false e (σ.keyed c.column key)) ts)
    (hkey : isSimpleKey key) (hrest : c.rest = simpleKey key.toList ++ ':' :: ' ' :: y) (hy : AtToken y)
    (hcolumn : σ.indent ≤ c.column) : Resumes (ready true c σ) ts := by
  have hbefore : c.rest = (simpleKey key.toList ++ [':']) ++ (' ' :: y) := by simpa using hrest
  have hinline : ∀ a ∈ simpleKey key.toList ++ [':'], isLineEnd a = false := by
    simpa [or_imp, forall_and] using ⟨(simpleKey_short hkey).1, rfl⟩
  have hend := skip_inline hbefore hinline
  rw [List.length_append, List.length_singleton] at hend
  have hnext := next_inline (congrArg rest hend) rfl
  have hfurther : c.column < (c.skip ((simpleKey key.toList).length + 1)).next.column := by
    rw [hnext, hend]
    dsimp only
    omega
  refine (h _ (by rw [hnext]) hfurther).shortKey hkey hrest rfl hcolumn (settle?_inline hy (by rw [hend]) ?_) ?_
  · rw [Blocks.indent_keyed hcolumn, hend]
    dsimp only
    omega
  · rw [hnext]
    exact Nat.le_succ _

-- The value starts on the line after its key.
theorem Resumes.shortKey_line {key : String} {y : List Char} {m : Nat}
    (h : ∀ e : Cursor, e.rest = y → e.column = m → Resumes (ready true e (σ.keyed c.column key)) ts)
    (hkey : isSimpleKey key) (hrest : c.rest = simpleKey key.toList ++ ':' :: '\n' :: (List.replicate m ' ' ++ y))
    (hy : AtToken y) (hcolumn : σ.indent ≤ c.column) (hm : c.column ≤ m) : Resumes (ready true c σ) ts := by
  have hbefore : c.rest = (simpleKey key.toList ++ [':']) ++ ('\n' :: List.replicate m ' ' ++ y) := by simpa using hrest
  have hafter := rest_skip hbefore
  rw [List.length_append, List.length_singleton] at hafter
  have hlines := skip_lines (s := []) hafter rfl isLineEnd_of_mem_replicate
  rw [List.nil_append, List.length_cons, List.length_replicate] at hlines
  have hclose : (σ.keyed c.column key).close m = σ.keyed c.column key :=
    Blocks.close_of_le (by rw [Blocks.indent_keyed hcolumn]; omega)
  have hsettle : settle? (ready false _ (σ.keyed c.column key)) = some (ready true _ _) :=
    settle?_line hy hafter nofun
  rw [hclose] at hsettle
  refine (h _ hlines.1 hlines.2.1).shortKey hkey hrest rfl hcolumn hsettle ?_
  rw [hlines.1, List.length_cons, List.length_append]
  omega

/-! ### Lines -/

theorem optional_saved {line : Nat} (hindent : σ.indent < c.column) (hline : c.line ≤ line) :
    Optional line (saved allowed c σ) := by
  intro start hstart
  cases allowed with
  | false => cases hstart
  | true =>
      obtain rfl := Option.some.inj hstart
      exact ⟨decide_eq_false (by omega), hline⟩

-- After a scalar that is read with its line the text goes on.
theorem Continues.passed {d : Cursor} {plain : Bool} (h : Continues n x (σ.add [.scalar s plain]) ts)
    (htoken : (ready allowed c σ).token? = some (scanned k σ plain ⟨s, d, true⟩)) (hk : Optional c.line k)
    (hx : AtToken x) (hrest : d.rest = x) (hcolumn : d.column = n) (hline : c.line < d.line)
    (hshorter : x.length < c.rest.length) : Resumes (ready allowed c σ) ts := by
  have hafter := h d hrest hcolumn
  rw [← hcolumn] at hafter
  exact hafter.token htoken (settle?_passed (hrest ▸ hx) hk hline) (by rwa [cursor_scanning, hrest])

-- After a token in a line the rest of it is passed.
theorem Continues.ended {z : Scan} {d : Cursor} (h : Continues n x σ ts)
    (htoken : z.token? = some (scanning k false d σ)) (hk : Optional d.line k) (hx : AtToken x)
    (hrest : d.rest = '\n' :: List.replicate n ' ' ++ x) (hshorter : d.rest.length < z.cursor.rest.length) :
    Resumes z ts := by
  have hlines := skip_lines (s := []) hrest rfl isLineEnd_of_mem_replicate
  rw [List.nil_append, List.length_cons, List.length_replicate] at hlines
  have hlength := congrArg List.length hrest
  refine (h _ hlines.1 hlines.2.1).token htoken (settle?_line hx hrest hk) ?_
  rw [cursor_scanning, hlines.1]
  simp only [List.length_append, List.length_cons] at hlength
  omega

theorem Continues.plainLine (h : Continues n x (σ.add [.scalar s true]) ts) (hs : Plain s)
    (hrest : c.rest = s ++ '\n' :: List.replicate n ' ' ++ x) (hbelow : Below n x σ.indent)
    (hindent : σ.indent < c.column) : Resumes (ready allowed c σ) ts := by
  obtain ⟨htoken, hmark⟩ := token?_plain allowed σ hs (by decide)
    (show c.rest = s ++ '\n' :: (List.replicate n ' ' ++ x) by simpa using hrest)
  rw [plain?_ready, plain?_line hs hrest hbelow hmark (by omega), Option.map_some] at htoken
  obtain ⟨hafter, hcolumn, hline⟩ := skip_lines hrest rfl isLineEnd_of_mem_replicate
  rw [List.length_replicate] at hcolumn
  refine h.passed htoken (optional_saved hindent (Nat.le_refl _)) hbelow.atToken hafter hcolumn hline ?_
  rw [hrest]
  simp only [List.length_append, List.length_cons]
  omega

theorem Continues.quotedLine {w : List Char} (h : Continues n x (σ.add [.scalar s false]) ts)
    (htoken : (ready allowed c σ).token? = some (scanned (saved allowed c σ) σ false ⟨s, c.skip w.length, false⟩))
    (hrest : c.rest = w ++ ('\n' :: List.replicate n ' ' ++ x)) (hne : w ≠ []) (hbelow : Below n x σ.indent)
    (hindent : σ.indent < c.column) : Resumes (ready allowed c σ) ts := by
  obtain ⟨hafter, -, hline⟩ := skip_eq hrest
  have hlength := congrArg List.length hrest
  refine h.ended htoken (optional_saved hindent hline) hbelow.atToken hafter ?_
  have := List.length_pos_iff.mpr hne
  rw [cursor_scanning, hafter, hlength]
  simp only [List.length_append]
  omega

theorem Continues.stringLine (h : Continues n x (σ.add [stringToken s]) ts)
    (hrest : c.rest = stringLine column s ++ (List.replicate n ' ' ++ x)) (hbelow : Below n x σ.indent)
    (hindent : σ.indent < c.column) (hcolumn : column = σ.indent.toNat + 2) : Resumes (ready allowed c σ) ts := by
  rw [stringToken] at h
  rw [Yaml.stringLine] at hrest
  cases hstyle : styleOf s with
  | plain =>
      rw [hstyle] at hrest h
      exact h.plainLine (plain_of_styleOf hstyle).2 (by simpa using hrest) hbelow hindent
  | single =>
      rw [hstyle] at hrest h
      have hrest : c.rest = singleQuoted column s ++ ('\n' :: List.replicate n ' ' ++ x) := by simpa using hrest
      have htoken := token?_single allowed σ (single_of_styleOf hstyle) (.inl (by omega)) hrest (by simp)
      exact h.quotedLine htoken hrest (by simp [singleQuoted_eq]) hbelow hindent
  | double =>
      rw [hstyle] at hrest h
      have hrest : c.rest = doubleQuoted s ++ ('\n' :: List.replicate n ' ' ++ x) := by simpa using hrest
      exact h.quotedLine (token?_double allowed σ hrest (by simp)) hrest (by simp [doubleQuoted]) hbelow hindent
  | literal =>
      rw [hstyle] at hrest h
      obtain ⟨hline, hallowed⟩ := literal_of_styleOf hstyle
      obtain ⟨hafter, hcolumn', hline'⟩ := skip_ended (isLineEnd_getLast?_literal hallowed) hrest
      have htoken := token?_literal allowed hallowed hline hcolumn hbelow hrest
      refine h.passed htoken nofun hbelow.atToken hafter hcolumn' hline' ?_
      rw [hrest, literal_eq]
      simp only [List.length_append, List.length_cons]
      omega

/-! ### Empty collections -/

-- The state inside a flow collection.
def inside (k : Option KeyStart) (c : Cursor) (σ : Blocks) : Scan := { scanning k true c σ with keys := [none, k] }

theorem settle?_inside (hk : ∀ start ∈ k, Scan.isStale c start = false) (hrest : AtToken c.rest) :
    settle? (inside k c σ) = some (inside k c σ) := by
  have htoken : (inside k c σ).toToken (c.rest.length + 1) = inside k c σ := toToken_blanks (n := 0) _ hrest rfl
  have hkeys : (inside k c σ).dropStaleKeys? = some (inside k c σ) := by
    cases k with
    | none => rfl
    | some start => simp [Scan.dropStaleKeys?, inside, hk start rfl]
  rw [settle?]
  change ((Scan.toToken (c.rest.length + 1) _).dropStaleKeys?).map _ = _
  rw [htoken, hkeys]
  rfl

theorem Continues.emptyLine {o e : Char} {t t' : Token} (h : Continues n x (σ.add [t, t']) ts)
    (hpair : o = '[' ∧ e = ']' ∧ t = .flowSequence ∧ t' = .flowSequenceEnd ∨
      o = '\x7b' ∧ e = '\x7d' ∧ t = .flowMapping ∧ t' = .flowMappingEnd)
    (hrest : c.rest = o :: e :: '\n' :: List.replicate n ' ' ++ x) (hbelow : Below n x σ.indent)
    (hindent : σ.indent < c.column) : Resumes (ready allowed c σ) ts := by
  have hchars : isLineEnd o = false ∧ isLineEnd e = false ∧ StartsToken e := by
    rcases hpair with ⟨rfl, rfl, -⟩ | ⟨rfl, rfl, -⟩ <;> decide
  have hnext : c.next = ⟨e :: '\n' :: List.replicate n ' ' ++ x, c.index + 1, c.line, c.column + 1⟩ :=
    next_inline hrest hchars.1
  have hend : c.next.next = ⟨'\n' :: List.replicate n ' ' ++ x, c.next.index + 1, c.next.line, c.next.column + 1⟩ :=
    next_inline (congrArg rest hnext) hchars.2.1
  have hopen : (ready allowed c σ).token? = some (inside (saved allowed c σ) c.next (σ.add [t])) := by
    have hflow : (ready allowed c σ).token? = (ready allowed c σ).flowStart? t := by
      rw [Scan.token?, cursor_scanning, hrest]
      rcases hpair with ⟨rfl, rfl, rfl, rfl⟩ | ⟨rfl, rfl, rfl, rfl⟩ <;> simp [isDocumentMark_of_ne]
    rw [hflow, Scan.flowStart?, saveKey?_ready]
    rfl
  have hclose : (inside (saved allowed c σ) c.next (σ.add [t])).token? =
      some (scanning (saved allowed c σ) false c.next.next (σ.add [t, t'])) := by
    have hflow : (inside (saved allowed c σ) c.next (σ.add [t])).token? =
        (inside (saved allowed c σ) c.next (σ.add [t])).flowEnd? t' := by
      rw [Scan.token?, show (inside (saved allowed c σ) c.next (σ.add [t])).cursor.rest = _ from congrArg rest hnext]
      rcases hpair with ⟨rfl, rfl, rfl, rfl⟩ | ⟨rfl, rfl, rfl, rfl⟩ <;> simp [isDocumentMark_of_ne]
    rw [hflow]
    rfl
  have hkept : ∀ start ∈ saved allowed c σ, Scan.isStale c.next start = false := by
    intro start hstart
    cases allowed with
    | false => cases hstart
    | true =>
        obtain rfl := Option.some.inj hstart
        rw [hnext]
        simp [Scan.isStale, keyStart]
  have hsettle := settle?_inside (σ := σ.add [t]) hkept (by rw [hnext]; exact .inr ⟨e, _, rfl, hchars.2.2⟩)
  have hinside : Resumes (inside (saved allowed c σ) c.next (σ.add [t])) ts := by
    refine h.ended hclose (optional_saved hindent ?_) hbelow.atToken (by rw [hend]) ?_
    · rw [hend, hnext]
    · change c.next.next.rest.length < c.next.rest.length
      rw [hend, hnext]
      exact Nat.lt_succ_self _
  refine hinside.token hopen hsettle ?_
  change c.next.rest.length < c.rest.length
  rw [hnext, hrest]
  exact Nat.lt_succ_self _

end ScraperTimeline.Yaml
