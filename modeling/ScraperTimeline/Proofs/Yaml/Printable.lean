import ScraperTimeline.Proofs.Yaml.Written

/-!
The characters of printed trees. All of them may stand in a document, and the breaks among them are in the form in
which they are read.
-/
namespace ScraperTimeline.Yaml

variable {s : List Char} {a : Char} {column : Nat} {t : Tree}

def Printable (s : List Char) : Prop := ∀ a ∈ s, isPrintable a

instance (s : List Char) : Decidable (Printable s) := List.decidableBAll _ s

theorem Printable.append {r : List Char} (hs : Printable s) (hr : Printable r) : Printable (s ++ r) := fun a ha =>
  (List.mem_append.mp ha).elim (hs a) (hr a)

theorem Printable.cons (ha : isPrintable a) (hs : Printable s) : Printable (a :: s) :=
  List.forall_mem_cons.mpr ⟨ha, hs⟩

theorem isAllowed_of_isPrintable (h : isPrintable a) : isAllowed a ∧ a ≠ '\r' ∧ a ≠ '\u0085' := by
  have hne (b : Char) (hb : isPrintable b = false) : a ≠ b := by
    rintro rfl
    simp [h] at hb
  refine ⟨?_, hne _ (by decide), hne _ (by decide)⟩
  simp only [isPrintable, isAllowed, Bool.or_eq_true, Bool.and_eq_true, decide_eq_true_eq] at h ⊢
  rcases h with (((h | h) | h) | h) | h
  · simp [h]
  · simp [h]
  · exact .inl (.inr ⟨h.1, Char.le_trans h.2 (by decide)⟩)
  · exact .inl (.inr ⟨Char.le_trans (by decide) h.1.1, h.1.2⟩)
  · exact .inr h

theorem unifyBreaks_eq (h : ∀ a ∈ s, a ≠ '\r' ∧ a ≠ '\u0085') : unifyBreaks s = s := by
  induction s with
  | nil => rfl
  | cons a s ih =>
      obtain ⟨ha, hs⟩ := List.forall_mem_cons.mp h
      rw [unifyBreaks, ih hs, if_neg (by simp [ha])]
      rintro r rfl
      exact absurd rfl ha.1

/-! ### Strings -/

theorem isPrintable_of_range {low high : Char} (hlow : ' ' ≤ low) (hhigh : high ≤ '~') (ha : low ≤ a ∧ a ≤ high) :
    isPrintable a := by
  have hspan : ' ' ≤ a ∧ a ≤ '~' := ⟨Char.le_trans hlow ha.1, Char.le_trans ha.2 hhigh⟩
  simp [isPrintable, hspan]

theorem isPrintable_of_digit (h : (Text.digit? 16 a).isSome) : isPrintable a := by
  rw [Text.digit?] at h
  by_cases hdigit : '0' ≤ a ∧ a ≤ '9'
  · exact isPrintable_of_range (by decide) (by decide) hdigit
  · by_cases hlower : 'a' ≤ a ∧ a ≤ 'z'
    · exact isPrintable_of_range (by decide) (by decide) hlower
    · by_cases hupper : 'A' ≤ a ∧ a ≤ 'Z'
      · exact isPrintable_of_range (by decide) (by decide) hupper
      · simp [hdigit, hlower, hupper] at h

theorem printable_upperHex (width n : Nat) : Printable (upperHex width n) := by
  intro a ha
  have hdigits := natural?_upperHex width n
  rw [Text.natural?_of_ne_nil (List.ne_nil_of_mem ha)] at hdigits
  exact isPrintable_of_digit (isSome_of_digitsFrom? hdigits a ha)

theorem printable_escaped (a : Char) : Printable (escaped a) := by
  have hletters : ∀ entry ∈ escapeLetters, isPrintable entry.2 := by decide
  rw [escaped]
  split
  next h =>
    simp only [Bool.and_eq_true] at h
    exact List.forall_mem_singleton.mpr h.1.1.1
  next =>
    refine .cons (by decide) ?_
    split
    next letter h =>
      obtain ⟨before, after, hsplit, -⟩ := List.lookup_eq_some_iff.mp h
      exact List.forall_mem_singleton.mpr (hletters (a, letter) (by simp [hsplit]))
    next =>
      split
      · exact .cons (by decide) (printable_upperHex _ _)
      · split <;> exact .cons (by decide) (printable_upperHex _ _)

theorem printable_doubleQuoted (s : List Char) : Printable (doubleQuoted s) := by
  refine .append (.cons (by decide) fun a ha => ?_) (by decide)
  obtain ⟨b, -, hb⟩ := List.mem_flatMap.mp ha
  exact printable_escaped b a hb

theorem printable_indentation (column : Nat) : Printable (indentation column) := fun a ha => by
  rw [List.eq_of_mem_replicate ha]
  decide

theorem printable_indentLines {write : Char → List Char} (hs : Printable s)
    (hwrite : ∀ a, isPrintable a → Printable (write a)) (fresh : Bool) :
    Printable (indentLines column write fresh s) := by
  induction s generalizing fresh with
  | nil => exact (by decide : Printable [])
  | cons a s ih =>
      obtain ⟨ha, hs⟩ := List.forall_mem_cons.mp hs
      rw [indentLines]
      split
      · exact .cons ha (ih hs true)
      · refine .append (.append ?_ (hwrite a ha)) (ih hs false)
        split
        · exact printable_indentation column
        · decide

theorem printable_singleQuoted (hs : Printable s) (column : Nat) : Printable (singleQuoted column s) := by
  refine .append (.append (.cons (by decide) (printable_indentLines hs (fun a ha => ?_) _)) ?_) (by decide)
  · split
    · decide
    · exact List.forall_mem_singleton.mpr ha
  · split
    · exact printable_indentation column
    · decide

theorem printable_literal (hs : Printable s) (column : Nat) : Printable (literal column s) := by
  have hmarks : Printable (literalMarks s) := by
    rw [literalMarks_eq]
    refine .append ?_ ?_
    · split <;> decide
    · cases chompingOf s <;> decide
  have hlines : Printable (indentLines column _ true s) :=
    printable_indentLines hs (fun a ha => List.forall_mem_singleton.mpr ha) true
  refine .append (.append (.cons (by decide) hmarks) (.cons (by decide) hlines)) ?_
  split <;> decide

-- Where a string is not written with escapes, it has no need of them.
theorem printable_of_styleOf (h : styleOf s ≠ .double) : Printable s := by
  have hprintable (hneeds : needsEscapes s = false) : Printable s := fun a ha => by
    simpa using List.any_eq_false.mp (Bool.or_eq_false_iff.mp hneeds).2 a ha
  apply hprintable
  rw [styleOf] at h
  split at h
  · split at h
    next hallowed =>
      simp only [literalAllowed, Bool.not_eq_true', Bool.or_eq_false_iff] at hallowed
      exact hallowed.2
    next => exact absurd rfl h
  · split at h
    next hplain =>
      simp only [plainAllowed, Bool.and_eq_true, Bool.not_eq_true', Bool.or_eq_false_iff] at hplain
      exact hplain.2.1.2
    next =>
      split at h
      next hallowed =>
        simp only [singleAllowed, Bool.not_eq_true', Bool.or_eq_false_iff] at hallowed
        exact hallowed.2
      next => exact absurd rfl h

theorem printable_simpleKey (s : List Char) : Printable (simpleKey s) := by
  rw [simpleKey]
  split
  next h => exact printable_of_styleOf (by simp [h])
  next h => exact printable_singleQuoted (printable_of_styleOf (by simp [h])) 0
  next => exact printable_doubleQuoted s

theorem printable_stringLine (column : Nat) (s : List Char) : Printable (stringLine column s) := by
  rw [stringLine]
  split
  next h => exact .append (printable_of_styleOf (by simp [h])) (by decide)
  next h => exact .append (printable_singleQuoted (printable_of_styleOf (by simp [h])) column) (by decide)
  next => exact .append (printable_doubleQuoted s) (by decide)
  next h => exact printable_literal (printable_of_styleOf (by simp [h])) column

/-! ### Trees -/

theorem printable_digits (n : Nat) : Printable (Text.digits n) := fun a ha => by
  have hdigit := Text.isDigit_of_mem_digits ha
  simp only [Text.isDigit, Bool.and_eq_true, decide_eq_true_eq] at hdigit
  exact isPrintable_of_range (by decide) (by decide) hdigit

theorem printable_decimal (n : Int) : Printable (Text.decimal n) := by
  cases n with
  | ofNat n => exact printable_digits n
  | negSucc n => exact .cons (by decide) (printable_digits (n + 1))

theorem printable_valueLead (column : Nat) (t : Tree) : Printable (valueLead column t) := by
  rw [valueLead.eq_def]
  split
  · exact .cons (by decide) (printable_indentation column)
  · exact .cons (by decide) (printable_indentation (column + 2))
  · decide

theorem printable_fieldLead (column : Nat) (key : String) (t : Tree) : Printable (fieldLead column key t).1 := by
  rw [fieldLead]
  split
  · exact .append (printable_simpleKey _) (.cons (by decide) (printable_valueLead column t))
  · have hmark : Printable ('?' :: ' ' :: stringLine (column + 2) key.toList) :=
      .cons (by decide) (.cons (by decide) (printable_stringLine _ _))
    exact .append (.append hmark (printable_indentation column)) (by decide)

theorem printable_itemLines {items : List Tree} (h : ∀ t ∈ items, ∀ column, Printable (block column t)) :
    Printable (itemLines column items) := by
  induction items with
  | nil => exact (by decide : Printable [])
  | cons t rest ih =>
      obtain ⟨ht, hrest⟩ := List.forall_mem_cons.mp h
      have hitem : Printable ('-' :: ' ' :: block (column + 2) t) := .cons (by decide) (.cons (by decide) (ht _))
      rw [itemLines, List.append_assoc]
      exact .append (printable_indentation column) (.append hitem (ih hrest))

theorem printable_fieldLines {fields : List (String × Tree)}
    (h : ∀ field ∈ fields, ∀ column, Printable (block column field.2)) : Printable (fieldLines column fields) := by
  induction fields with
  | nil => exact (by decide : Printable [])
  | cons field rest ih =>
      obtain ⟨key, t⟩ := field
      obtain ⟨ht, hrest⟩ := List.forall_mem_cons.mp h
      have hlead := (printable_indentation column).append (printable_fieldLead column key t)
      exact .append (hlead.append (ht _)) (ih hrest)

theorem printable_block (hfree : t.floatFree) (column : Nat) : Printable (block column t) := by
  induction t generalizing column with
  | null => exact (by decide : Printable "null\n".toList)
  | bool b =>
      cases b with
      | false => exact (by decide : Printable "false\n".toList)
      | true => exact (by decide : Printable "true\n".toList)
  | int n => exact .append (printable_decimal n.toInt) (by decide)
  | float x => cases hfree
  | string s => exact printable_stringLine column s.toList
  | seq items ih =>
      have hfree := Tree.floatFree_seq_iff.mp hfree
      have hitems : ∀ t ∈ items, ∀ column, Printable (block column t) := fun t ht => ih t ht (hfree t ht)
      cases items with
      | nil => exact (by decide : Printable "[]\n".toList)
      | cons t rest =>
          obtain ⟨ht, hrest⟩ := List.forall_mem_cons.mp hitems
          exact .append (.cons (by decide) (.cons (by decide) (ht _))) (printable_itemLines hrest)
  | map fields ih =>
      have hfree := Tree.floatFree_map_iff.mp hfree
      have hfields : ∀ field ∈ fields, ∀ column, Printable (block column field.2) := fun field hfield =>
        ih field hfield (hfree field hfield)
      cases fields with
      | nil => exact (by decide : Printable "\x7b\x7d\n".toList)
      | cons field rest =>
          obtain ⟨key, t⟩ := field
          obtain ⟨ht, hrest⟩ := List.forall_mem_cons.mp hfields
          exact .append (.append (printable_fieldLead column key t) (ht _)) (printable_fieldLines hrest)

/-! ### Documents -/

-- The column at which a whole tree is printed.
def rootColumn : Tree → Nat
  | .seq (_ :: _) | .map (_ :: _) => 0
  | _ => 2

theorem toYaml_eq (t : Tree) : t.toYaml.toList = block (rootColumn t) t := by
  cases t with
  | null | bool | int | float | string => exact String.toList_ofList
  | seq items => cases items <;> exact String.toList_ofList
  | map fields => cases fields <;> exact String.toList_ofList

-- Before the first token there are no blocks.
def noBlocks : Blocks := ⟨[], -1, []⟩

theorem placed_root (t : Tree) (text : List Char) :
    Placed false (rootColumn t) true (Cursor.start text) noBlocks t := by
  have hleaf : noBlocks.indent < (Cursor.start text).column ∧ 2 = noBlocks.indent.toNat + 2 :=
    ⟨(by decide : (-1 : Int) < (0 : Nat)), rfl⟩
  cases t with
  | null | bool | int | float | string => exact hleaf
  | seq items =>
      cases items with
      | nil => exact hleaf
      | cons t rest => exact ⟨rfl, rfl, hleaf.1⟩
  | map fields =>
      cases fields with
      | nil => exact hleaf
      | cons field rest => exact ⟨rfl, rfl, hleaf.1⟩

-- The printed text is scanned to the tokens of the tree.
theorem tokens?_toYaml (hfree : t.floatFree) : tokens? t.toYaml.toList = some (tokensOf false t ++ [.streamEnd]) := by
  have hprintable := printable_block hfree (rootColumn t)
  have hallowed : (block (rootColumn t) t).all isAllowed :=
    List.all_eq_true.mpr fun a ha => (isAllowed_of_isPrintable (hprintable a ha)).1
  have hunified : unifyBreaks (block (rootColumn t) t) = block (rootColumn t) t :=
    unifyBreaks_eq fun a ha => (isAllowed_of_isPrintable (hprintable a ha)).2
  obtain ⟨a, r, hstarts, ha⟩ := starts_block hfree (rootColumn t)
  have hsettle : settle? (ready true (Cursor.start (block (rootColumn t) t)) noBlocks) =
      some (ready true (Cursor.start (block (rootColumn t) t)) noBlocks) :=
    settle?_blanks (n := 0) (.inr ⟨a, r, hstarts, ha⟩) rfl nofun
  have hresumes : Resumes (ready true (Cursor.start (block (rootColumn t) t)) noBlocks)
      (tokensOf false t ++ [.streamEnd]) := by
    have hend := continues_end (noBlocks.add (tokensOf false t))
    rw [Blocks.close_of_le (show (noBlocks.add (tokensOf false t)).indent ≤ -1 from Int.le_refl _)] at hend
    refine scans_of_floatFree hfree (placed_root t _) (x := []) (by simp [Cursor.start]) (.inl ⟨rfl, rfl⟩) ?_
    simpa [Blocks.add, noBlocks] using hend
  have hrun := run?_succ (block (rootColumn t) t).length (ready true (Cursor.start (block (rootColumn t) t)) noBlocks)
  rw [hsettle, Option.bind_some, hresumes (block (rootColumn t) t).length (Nat.le_refl _)] at hrun
  rw [toYaml_eq, tokens?, if_pos hallowed, hunified]
  exact hrun

end ScraperTimeline.Yaml
