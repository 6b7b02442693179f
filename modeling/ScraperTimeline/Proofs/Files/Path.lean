import ScraperTimeline.Proofs.Files.Walk

/-!
Paths as texts. Where a path leads depends on its start and on the names in it, so what is left of it without
a base leads to the same place when it is put below the base again.
-/
namespace ScraperTimeline

namespace Text

variable {separator c : Char} {text : List Char} {piece : List Char}

theorem split_concat (separator : Char) (text rest : List Char) :
    split separator (text ++ separator :: rest) = split separator text ++ split separator rest := by
  induction text with
  | nil => simp [split]
  | cons c text ih =>
      rw [List.cons_append, split, split, ih]
      by_cases hc : c = separator
      · rw [if_pos hc, if_pos hc, List.cons_append]
      · obtain ⟨first, more, hsplit⟩ := List.exists_cons_of_ne_nil (split_ne_nil separator text)
        rw [if_neg hc, if_neg hc, hsplit]
        rfl

theorem notMem_of_mem_split (h : piece ∈ split separator text) : separator ∉ piece := by
  induction text generalizing piece with
  | nil => simp_all [split]
  | cons c text ih =>
      rw [split] at h
      split at h
      · rcases List.mem_cons.mp h with rfl | h
        · exact List.not_mem_nil
        · exact ih h
      · rename_i hc
        obtain ⟨first, more, hsplit⟩ := List.exists_cons_of_ne_nil (split_ne_nil separator text)
        rw [hsplit] at h ih
        rcases List.mem_cons.mp h with rfl | h
        · exact fun hmem => (List.mem_cons.mp hmem).elim (fun heq => hc heq.symm) (ih List.mem_cons_self)
        · exact ih (List.mem_cons_of_mem _ h)

-- Nothing but separators is lost between the pieces.
theorem mem_iff_of_ne (hne : c ≠ separator) : c ∈ text ↔ ∃ piece ∈ split separator text, c ∈ piece := by
  induction text with
  | nil => simp [split]
  | cons d text ih =>
      rw [split]
      split
      · rename_i hd
        have hcd : c ≠ d := hd ▸ hne
        simp [hcd, ih]
      · obtain ⟨first, more, hsplit⟩ := List.exists_cons_of_ne_nil (split_ne_nil separator text)
        rw [hsplit] at ih ⊢
        simp [ih, or_assoc]

end Text

namespace Path

variable {base text id piece : String} {ps rest ns : List String} {way : Path}

/-! ### Pieces -/

theorem pieces_ne_nil (text : String) : pieces text ≠ [] := by
  simpa [pieces] using Text.split_ne_nil '/' text.toList

theorem pieces_append (text rest : String) : pieces (text ++ "/" ++ rest) = pieces text ++ pieces rest := by
  have htext : (text ++ "/" ++ rest).toList = text.toList ++ '/' :: rest.toList := by simp
  rw [pieces, htext, Text.split_concat, List.map_append]
  rfl

theorem pieces_of_noSlash (h : '/' ∉ text.toList) : pieces text = [text] := by
  rw [pieces, Text.split_of_notMem h]
  simp

theorem noSlash_of_mem_pieces (h : piece ∈ pieces text) : '/' ∉ piece.toList := by
  obtain ⟨chars, hchars, rfl⟩ := List.mem_map.mp h
  rw [String.toList_ofList]
  exact Text.notMem_of_mem_split hchars

theorem pieces_intercalate (hne : ps ≠ []) (h : ∀ piece ∈ ps, '/' ∉ piece.toList) :
    pieces ("/".intercalate ps) = ps := by
  induction ps with
  | nil => exact (hne rfl).elim
  | cons first ps ih =>
      obtain ⟨hfirst, hrest⟩ := List.forall_mem_cons.mp h
      cases ps with
      | nil => rw [String.intercalate_singleton, pieces_of_noSlash hfirst]
      | cons second ps =>
          rw [String.intercalate_cons_cons, pieces_append, pieces_of_noSlash hfirst,
            ih (List.cons_ne_nil _ _) hrest]
          rfl

theorem mem_names : piece ∈ names text ↔ piece ∈ pieces text ∧ leadsNowhere piece = false := by
  simp [names]

-- What leads nowhere has no character but dots.
theorem notMem_of_leadsNowhere {c : Char} (hc : c ≠ '.') (h : leadsNowhere piece) : c ∉ piece.toList := by
  rcases (by simpa [leadsNowhere] using h : piece = "" ∨ piece = ".") with rfl | rfl <;> simp [hc]

theorem mem_toList_iff {c : Char} (hslash : c ≠ '/') (hdot : c ≠ '.') :
    c ∈ text.toList ↔ ∃ name ∈ names text, c ∈ name.toList := by
  rw [Text.mem_iff_of_ne hslash]
  constructor
  · rintro ⟨chars, hchars, hc⟩
    have hmem : c ∈ (String.ofList chars).toList := by rwa [String.toList_ofList]
    refine ⟨String.ofList chars, mem_names.mpr ⟨List.mem_map_of_mem hchars, ?_⟩, hmem⟩
    by_contra hnowhere
    exact notMem_of_leadsNowhere hdot (Bool.not_eq_false _ ▸ hnowhere) hmem
  · rintro ⟨name, hname, hc⟩
    obtain ⟨chars, hchars, rfl⟩ := List.mem_map.mp (mem_names.mp hname).1
    rw [String.toList_ofList] at hc
    exact ⟨chars, hchars, hc⟩

/-! ### Paths below a base -/

section
variable (hbase : base ≠ "")
include hbase

theorem toList_ne_nil : base.toList ≠ [] := fun h => hbase (String.toList_inj.mp h)

theorem isAbsolute_append (text : String) : isAbsolute (base ++ text) = isAbsolute base := by
  obtain ⟨first, more, hchars⟩ := List.exists_cons_of_ne_nil (toList_ne_nil hbase)
  simp [isAbsolute, hchars]

variable (htext : isAbsolute text = false)
include htext

theorem within_cases :
    (∃ stem, base = stem ++ "/" ∧ within base text = stem ++ "/" ++ text) ∨
      within base text = base ++ "/" ++ text := by
  have hempty : base.isEmpty = false := by simpa using hbase
  rw [within, if_neg (by simp [htext, hempty])]
  split
  · rename_i hlast
    obtain ⟨stem, hstem⟩ := List.getLast?_eq_some_iff.mp hlast
    have heq : base = String.ofList stem ++ "/" := by rw [← String.toList_inj, hstem]; simp
    exact .inl ⟨String.ofList stem, heq, by rw [← heq]⟩
  · exact .inr rfl

-- The pieces of a path below a base: those that lead through the base, and its own.
theorem exists_pieces_within : ∃ ps, pieces (within base text) = ps ++ pieces text ∧
    ps.filter (!leadsNowhere ·) = names base ∧ ps.head? = (pieces base).head? := by
  rcases within_cases hbase htext with ⟨stem, rfl, hwithin⟩ | hwithin
  · have hpieces : pieces (stem ++ "/") = pieces stem ++ [""] := by
      have happend := pieces_append stem ""
      rwa [String.append_empty] at happend
    refine ⟨pieces stem, by rw [hwithin, pieces_append], ?_, ?_⟩
    · rw [names, hpieces, List.filter_append]
      exact (List.append_nil _).symm
    · rw [hpieces, List.head?_append_of_ne_nil _ (pieces_ne_nil stem)]
  · exact ⟨pieces base, by rw [hwithin, pieces_append], rfl, rfl⟩

theorem isAbsolute_within : isAbsolute (within base text) = isAbsolute base := by
  rcases within_cases hbase htext with ⟨stem, rfl, hwithin⟩ | hwithin
  · rw [hwithin, isAbsolute_append hbase]
  · rw [hwithin, String.append_assoc, isAbsolute_append hbase]

theorem names_within : names (within base text) = names base ++ names text := by
  obtain ⟨ps, hpieces, hnames, -⟩ := exists_pieces_within hbase htext
  rw [names, hpieces, List.filter_append, hnames]
  rfl

theorem getLast?_pieces_within : (pieces (within base text)).getLast? = (pieces text).getLast? := by
  obtain ⟨ps, hpieces, -⟩ := exists_pieces_within hbase htext
  rw [hpieces, List.getLast?_append_of_ne_nil _ (pieces_ne_nil text)]

theorem anchor_within : anchor (within base text) = anchor base := by
  obtain ⟨ps, hpieces, -, hhead⟩ := exists_pieces_within hbase htext
  have hfirst : (pieces (within base text)).head? = (pieces base).head? := by
    rw [hpieces, ← hhead]
    refine List.head?_append_of_ne_nil _ fun hnil => ?_
    rw [hnil, List.head?_nil, eq_comm, List.head?_eq_none_iff] at hhead
    exact pieces_ne_nil base hhead
  rw [anchor, anchor, isAbsolute_within hbase htext, hfirst]

end

theorem isAbsolute_eq_of_anchor_eq {other : String} (h : anchor text = anchor other) :
    isAbsolute text = isAbsolute other := by
  have hanchor (s : String) : isAbsolute s = true ↔ anchor s = "/" := by
    rw [anchor]
    split
    · simp [*]
    · split <;> simp [*]
  rw [Bool.eq_iff_iff, hanchor, hanchor, h]

/-! ### Paths without a base -/

theorem filter_dropWhile (ps : List String) :
    (ps.dropWhile leadsNowhere).filter (!leadsNowhere ·) = ps.filter (!leadsNowhere ·) := by
  induction ps with
  | nil => rfl
  | cons piece ps ih =>
      by_cases h : leadsNowhere piece
      · simp [h, ih]
      · simp [h]

theorem leads_of_mem_head? {first : String} (h : first ∈ (ps.dropWhile leadsNowhere).head?) :
    leadsNowhere first = false := by
  have hnot := List.head?_dropWhile_not leadsNowhere ps
  rwa [Option.mem_def.mp h] at hnot

-- The next piece that leads somewhere, if there is one.
theorem filter_of_dropWhile {more : List String} (h : ps.dropWhile leadsNowhere = piece :: more) :
    ps.filter (!leadsNowhere ·) = piece :: more.filter (!leadsNowhere ·) := by
  have hhead : piece ∈ (ps.dropWhile leadsNowhere).head? := by
    rw [h]
    rfl
  have hpiece : leadsNowhere piece = false := leads_of_mem_head? hhead
  rw [← filter_dropWhile, h, List.filter_cons_of_pos (by simp [hpiece])]

-- The rest begins with what leads somewhere, and leads where the pieces lead after the names.
theorem of_after? (h : after? ns ps = some rest) :
    ps.filter (!leadsNowhere ·) = ns ++ rest.filter (!leadsNowhere ·) ∧ rest <:+ ps ∧
      ∀ first ∈ rest.head?, leadsNowhere first = false := by
  induction ns generalizing ps with
  | nil =>
      obtain rfl := Option.some.inj h
      exact ⟨(filter_dropWhile ps).symm, List.dropWhile_suffix _, fun _ => leads_of_mem_head?⟩
  | cons name ns ih =>
      rw [after?] at h
      split at h
      next piece more hdrop =>
        split at h
        next heq =>
          subst heq
          obtain ⟨hnames, hsuffix, hhead⟩ := ih h
          have hmore : more <:+ ps := by
            have hdropped := List.dropWhile_suffix (l := ps) leadsNowhere
            rw [hdrop] at hdropped
            exact (List.suffix_cons piece more).trans hdropped
          exact ⟨by rw [filter_of_dropWhile hdrop, hnames]; rfl, hsuffix.trans hmore, hhead⟩
        next => cases h
      next => cases h

theorem exists_after? {more : List String} (h : ps.filter (!leadsNowhere ·) = ns ++ more) :
    ∃ rest, after? ns ps = some rest := by
  induction ns generalizing ps with
  | nil => exact ⟨_, rfl⟩
  | cons name ns ih =>
      cases hdrop : ps.dropWhile leadsNowhere with
      | nil =>
          rw [← filter_dropWhile, hdrop] at h
          cases h
      | cons piece rest =>
          rw [filter_of_dropWhile hdrop] at h
          obtain ⟨rfl, hrest⟩ := List.cons.inj h
          obtain ⟨found, hfound⟩ := ih hrest
          exact ⟨found, by rw [after?, hdrop]; exact (if_pos rfl).trans hfound⟩

-- Two texts of one path to a file.
structure SameWay (text other : String) : Prop where
  absolute : isAbsolute text = isAbsolute other
  names : names text = names other
  last : (pieces text).getLast? = (pieces other).getLast?

theorem isAbsolute_intercalate (hne : rest ≠ [])
    (hhead : ∀ first ∈ rest.head?, leadsNowhere first = false) (h : ∀ piece ∈ rest, '/' ∉ piece.toList) :
    isAbsolute ("/".intercalate rest) = false := by
  obtain ⟨first, more, rfl⟩ := List.exists_cons_of_ne_nil hne
  have hfirst : first ≠ "" := by
    rintro rfl
    cases hhead _ rfl
  have hnot : isAbsolute first = false := by
    obtain ⟨c, chars, hchars⟩ := List.exists_cons_of_ne_nil (toList_ne_nil hfirst)
    have hslash := h first List.mem_cons_self
    rw [hchars] at hslash
    rw [isAbsolute, hchars, List.head?_cons, decide_eq_false_iff_not, Option.some.injEq]
    rintro rfl
    exact hslash List.mem_cons_self
  cases more with
  | nil => rwa [String.intercalate_singleton]
  | cons second more =>
      rwa [String.intercalate_cons_cons, String.append_assoc, isAbsolute_append hfirst]

theorem anchor_eq_of_below? (hbase : base ≠ "") (h : below? base text = some id) : anchor base = anchor text := by
  have hempty : base.isEmpty = false := by simpa using hbase
  rw [below?, if_neg (by simp [hempty])] at h
  split at h
  next hanchor => exact hanchor
  next => cases h

theorem isAbsolute_eq_of_below? (hbase : base ≠ "") (h : below? base text = some id) :
    isAbsolute text = isAbsolute base :=
  (isAbsolute_eq_of_anchor_eq (anchor_eq_of_below? hbase h)).symm

-- What a path says below a base leads there from the base, unless it is the base itself.
theorem sameWay_of_below? (hbase : base ≠ "") (h : below? base text = some id)
    (hne : names text ≠ names base) : SameWay (within base id) text := by
  have hempty : base.isEmpty = false := by simpa using hbase
  have hanchor := anchor_eq_of_below? hbase h
  rw [below?, if_neg (by simp [hempty]), if_pos hanchor] at h
  obtain ⟨rest, hrest, rfl⟩ := Option.map_eq_some_iff.mp h
  obtain ⟨hnames, hsuffix, hhead⟩ := of_after? hrest
  have hsome : rest ≠ [] := by
    rintro rfl
    exact hne (hnames.trans (List.append_nil _))
  have hslash : ∀ piece ∈ rest, '/' ∉ piece.toList := fun piece hpiece =>
    noSlash_of_mem_pieces (hsuffix.subset hpiece)
  have hpieces : pieces ("/".intercalate rest) = rest := pieces_intercalate hsome hslash
  have hrelative := isAbsolute_intercalate hsome hhead hslash
  refine ⟨?_, ?_, ?_⟩
  · rw [isAbsolute_within hbase hrelative, isAbsolute_eq_of_anchor_eq hanchor]
  · have hrest : names ("/".intercalate rest) = rest.filter (!leadsNowhere ·) := by rw [names, hpieces]
    rw [names_within hbase hrelative, hrest]
    exact hnames.symm
  · obtain ⟨before, heq⟩ := hsuffix
    rw [getLast?_pieces_within hbase hrelative, hpieces, ← heq, List.getLast?_append_of_ne_nil _ hsome]

-- What is put below a base is below it.
theorem exists_below? (hbase : base ≠ "") (hanchor : anchor base = anchor text) {more : List String}
    (hnames : names text = names base ++ more) : ∃ id, below? base text = some id := by
  have hempty : base.isEmpty = false := by simpa using hbase
  obtain ⟨rest, hrest⟩ : ∃ rest, after? (names base) (pieces text) = some rest := exists_after? hnames
  rw [below?, if_neg (by simp [hempty]), if_pos hanchor, hrest]
  exact ⟨_, rfl⟩

/-! ### Ways as texts -/

section
variable (hne : way ≠ []) (hnames : ∀ name ∈ way, IsName name)
include hne hnames

theorem pieces_wayText : pieces way.wayText = way.reverse :=
  pieces_intercalate (by simpa using hne) fun name hname => (hnames name (List.mem_reverse.mp hname)).noSlash

theorem isAbsolute_wayText : isAbsolute way.wayText = false := by
  refine isAbsolute_intercalate (by simpa using hne) (fun first hfirst => ?_) fun name hname =>
    (hnames name (List.mem_reverse.mp hname)).noSlash
  exact (hnames first (List.mem_reverse.mp (List.mem_of_mem_head? hfirst))).somewhere

theorem names_wayText : names way.wayText = way.reverse := by
  rw [names, pieces_wayText hne hnames]
  refine List.filter_eq_self.mpr fun name hname => ?_
  rw [(hnames name (List.mem_reverse.mp hname)).somewhere]
  rfl

end

end Path

/-! ### Where paths lead -/

namespace Files

variable {fs : Files} {p q dir : Path} {ps ns : List String} {text other name piece : String}

-- From a place the pieces lead to another one.
def Leads (fs : Files) (p : Path) (ps : List String) (q : Path) : Prop := ps.foldlM fs.advance p = .ok q

theorem advance_eq_ok_iff : fs.advance p piece = .ok q ↔ fs.at? p = some .directory ∧ p.step piece = q := by
  rw [advance]
  split <;> simp [*]

theorem leads_nil_iff : fs.Leads p [] q ↔ p = q := by
  rw [Leads, List.foldlM_nil]
  exact ⟨Except.ok.inj, congrArg Except.ok⟩

theorem leads_cons_iff :
    fs.Leads p (piece :: ps) q ↔ fs.at? p = some .directory ∧ fs.Leads (p.step piece) ps q := by
  rw [Leads, List.foldlM_cons]
  constructor
  · intro h
    obtain ⟨next, hnext, hrest⟩ := exists_of_bind h
    obtain ⟨hdir, rfl⟩ := advance_eq_ok_iff.mp hnext
    exact ⟨hdir, hrest⟩
  · rintro ⟨hdir, hrest⟩
    rw [advance_eq_ok_iff.mpr ⟨hdir, rfl⟩]
    exact hrest

theorem leads_append_iff : fs.Leads p (ps ++ ns) q ↔ ∃ between, fs.Leads p ps between ∧ fs.Leads between ns q := by
  induction ps generalizing p with
  | nil => simp [leads_nil_iff]
  | cons piece ps ih => simp [leads_cons_iff, ih, and_assoc]

theorem leads_congr {fs' : Files} (h : ∀ p, fs'.at? p = fs.at? p) : fs'.Leads p ps q ↔ fs.Leads p ps q := by
  induction ps generalizing p with
  | nil => rw [leads_nil_iff, leads_nil_iff]
  | cons piece ps ih => rw [leads_cons_iff, leads_cons_iff, h, ih]

theorem Leads.directory (h : fs.Leads p ps q) (hq : fs.at? q = some .directory) :
    fs.at? p = some .directory := by
  cases ps with
  | nil => exact leads_nil_iff.mp h ▸ hq
  | cons piece ps => exact (leads_cons_iff.mp h).1

theorem Leads.foldl_step (h : fs.Leads p ps q) : ps.foldl Path.step p = q := by
  induction ps generalizing p with
  | nil => exact leads_nil_iff.mp h
  | cons piece ps ih => exact ih (leads_cons_iff.mp h).2

theorem step_of_leadsNowhere (h : Path.leadsNowhere piece) (p : Path) : p.step piece = p := if_pos h

-- To a directory the names alone lead.
theorem leads_names_iff (hq : fs.at? q = some .directory) :
    fs.Leads p (ps.filter (!Path.leadsNowhere ·)) q ↔ fs.Leads p ps q := by
  induction ps generalizing p with
  | nil => rfl
  | cons piece ps ih =>
      by_cases hpiece : Path.leadsNowhere piece
      · rw [List.filter_cons_of_neg (by simpa using hpiece), ih, leads_cons_iff, step_of_leadsNowhere hpiece]
        exact ⟨fun h => ⟨h.directory hq, h⟩, And.right⟩
      · rw [List.filter_cons_of_pos (by simpa using hpiece), leads_cons_iff, leads_cons_iff, ih]

theorem locate_eq_ok_iff : fs.locate text = .ok p ↔
    text ≠ "" ∧ '\x00' ∉ text.toList ∧ fs.Leads (fs.start text) (Path.pieces text) p := by
  rw [locate]
  split
  next hempty => simp_all
  next hempty =>
    split
    next hnul => simp_all
    next hnul => simp_all [Leads]

theorem step_of_isName (h : Path.IsName name) (p : Path) : p.step name = name :: p := by
  rw [Path.step, if_neg (by simp [h.somewhere]), if_neg h.notBack]

-- The names of a path lead to a file if the last piece is its name and the others lead to its directory.
theorem locate_of_names (hname : Path.IsName name) (hlast : (Path.pieces text).getLast? = some name)
    (hnames : Path.names text = ns ++ [name]) (hnul : ∀ n ∈ ns, '\x00' ∉ n.toList)
    (hleads : fs.Leads (fs.start text) ns dir) (hdir : fs.at? dir = some .directory) :
    fs.locate text = .ok (name :: dir) := by
  obtain ⟨ps, hpieces⟩ := List.getLast?_eq_some_iff.mp hlast
  have hfilter : ps.filter (!Path.leadsNowhere ·) = ns := by
    rw [Path.names, hpieces, List.filter_append, List.filter_singleton, hname.somewhere] at hnames
    exact List.append_cancel_right hnames
  refine locate_eq_ok_iff.mpr ⟨?_, ?_, ?_⟩
  · rintro rfl
    obtain rfl : "" = name := by simpa [Path.pieces, Text.split] using hlast
    cases hname.somewhere
  · rw [Path.mem_toList_iff (by decide) (by decide), hnames]
    rintro ⟨n, hn, hmem⟩
    rcases List.mem_append.mp hn with hn | hn
    · exact hnul n hn hmem
    · exact hname.noNul (List.mem_singleton.mp hn ▸ hmem)
  · rw [hpieces, leads_append_iff]
    refine ⟨dir, (leads_names_iff hdir).mp (hfilter ▸ hleads), leads_cons_iff.mpr ⟨hdir, ?_⟩⟩
    rw [step_of_isName hname, leads_nil_iff]

-- In a tree the names on a way lead along it.
theorem IsTree.leads_way (h : fs.IsTree) {way : Path} (hdir : fs.at? (way ++ p) = some .directory) :
    fs.Leads p way.reverse (way ++ p) := by
  induction way with
  | nil => exact leads_nil_iff.mpr rfl
  | cons name way ih =>
      obtain ⟨haround, hname⟩ := h.directory_of_at? hdir
      rw [List.reverse_cons, leads_append_iff]
      refine ⟨way ++ p, ih haround, leads_cons_iff.mpr ⟨haround, ?_⟩⟩
      rw [step_of_isName hname, leads_nil_iff]
      rfl

theorem IsTree.isName_of_mem (h : fs.IsTree) {way : Path} {e : Entry} (hat : fs.at? (way ++ p) = some e) :
    ∀ name ∈ way, Path.IsName name := by
  induction way generalizing e with
  | nil => simp
  | cons name way ih =>
      obtain ⟨haround, hname⟩ := h.directory_of_at? hat
      exact List.forall_mem_cons.mpr ⟨hname, ih haround⟩

end Files
end ScraperTimeline
