import ScraperTimeline.Proofs.Files.Path
import ScraperTimeline.Source.Basic
import Mathlib.Data.List.Forall2
import Mathlib.Data.List.Lex

/-!
Discovery of documents. The files below a directory that have one of some extensions are listed, each once and
in the order of the names on their paths, under ids by which they are read.
-/
namespace ScraperTimeline

-- Every file holds a text.
def Files.AllText (fs : Files) : Prop := ∀ p text, fs.at? p = some (.file text) → text.isSome

namespace Resources

variable {r : Resources} {fs fs' : Files} {dir id name : String} {place way p : Path} {extensions : List String}
  {as bs cs : List String}

/-! ### Order -/

theorem namesLe_iff : namesLe as bs ↔ as = bs ∨ List.Lex (· < ·) as bs := by
  fun_induction namesLe as bs with
  | case1 bs => cases bs <;> simp
  | case2 a as => simp
  | case3 a as b bs hlt => exact iff_of_true rfl (.inr (.rel hlt))
  | case4 as b bs hnot ih =>
      rw [ih, List.cons.injEq, List.lex_cons_iff]
      simp
  | case5 a as b bs hnot hne =>
      refine iff_of_false (by simp) ?_
      rintro (heq | hlex)
      · exact hne (List.cons.inj heq).1
      · cases hlex with
        | rel hlt => exact hnot hlt
        | cons => exact hne rfl

theorem namesLe_trans (h : namesLe as bs) (h' : namesLe bs cs) : namesLe as cs := by
  rcases namesLe_iff.mp h with rfl | hlt
  · exact h'
  · rcases namesLe_iff.mp h' with rfl | hlt'
    · exact h
    · exact namesLe_iff.mpr (.inr (List.lex_trans String.lt_trans hlt hlt'))

theorem namesLe_total (as bs : List String) : namesLe as bs || namesLe bs as := by
  rw [Bool.or_eq_true, namesLe_iff, namesLe_iff]
  rcases trichotomous_of (List.Lex (· < · : String → String → Prop)) as bs with hlt | heq | hgt
  · exact .inl (.inr hlt)
  · exact .inl (.inl heq)
  · exact .inr (.inr hgt)

theorem mem_sortWays {ways : List Path} : way ∈ sortWays ways ↔ way ∈ ways :=
  (List.mergeSort_perm ways _).mem_iff

theorem sorted_sortWays (ways : List Path) :
    (sortWays ways).Pairwise fun way other => namesLe way.reverse other.reverse := by
  refine List.pairwise_mergeSort (fun way other last hle hle' => ?_) (fun way other => ?_) ways
  · exact namesLe_trans hle hle'
  · exact namesLe_total way.reverse other.reverse

-- Different ways come in strictly ascending order.
theorem pairwise_sortWays {ways : List Path} (h : ways.Nodup) :
    (sortWays ways).Pairwise fun way other => List.Lex (· < ·) way.reverse other.reverse := by
  have hnodup : (sortWays ways).Nodup := (List.mergeSort_perm ways _).nodup_iff.mpr h
  refine ((sorted_sortWays ways).and hnodup).imp fun ⟨hle, hne⟩ => ?_
  exact (namesLe_iff.mp hle).resolve_left fun heq => hne (List.reverse_inj.mp heq)

theorem sortWays_eq_of_perm {ways others : List Path} (h : ways.Perm others) :
    sortWays ways = sortWays others := by
  refine List.Perm.eq_of_pairwise (fun way other _ _ hle hge => ?_) (sorted_sortWays ways)
    (sorted_sortWays others)
    (((List.mergeSort_perm ways _).trans h).trans (List.mergeSort_perm others _).symm)
  rcases namesLe_iff.mp hle with heq | hlt
  · exact List.reverse_inj.mp heq
  · rcases namesLe_iff.mp hge with heq | hgt
    · exact (List.reverse_inj.mp heq).symm
    · exact (List.lex_asymm String.lt_asymm hlt hgt).elim

/-! ### Ids -/

-- The base is no file, so that something is left of the path of a file without it. It need not be there.
def BaseIsNoFile (r : Resources) (fs : Files) : Prop :=
  ∀ base, r.base = some base → ∀ text,
    fs.at? ((Path.names base).foldl Path.step (fs.start base)) ≠ some (.file text)

-- The path of a file below the root of a listing, as text.
def pathBelow (root : String) (way : Path) : String := Path.within root way.wayText

theorem start_eq_of_isAbsolute {text other : String} (h : Path.isAbsolute text = Path.isAbsolute other) :
    fs.start text = fs.start other := by rw [Files.start, Files.start, h]

theorem directoryAt?_eq_some_iff {text : String} : fs.directoryAt? text = some place ↔
    fs.locate text = .ok place ∧ fs.at? place = some .directory := by
  rw [Files.directoryAt?]
  cases hlocate : fs.locate text with
  | error e => simp
  | ok p =>
      simp only [Except.ok.injEq, Option.ite_none_right_eq_some, Option.some.injEq, Files.isDirectory,
        decide_eq_true_eq]
      constructor
      · rintro ⟨hdir, rfl⟩
        exact ⟨rfl, hdir⟩
      · rintro ⟨rfl, hdir⟩
        exact ⟨hdir, rfl⟩

-- The root of a listing: the path of a directory.
structure IsRoot (fs : Files) (root : String) (place : Path) : Prop where
  ne : root ≠ ""
  noNul : ∀ name ∈ Path.names root, '\x00' ∉ name.toList
  leads : fs.Leads (fs.start root) (Path.names root) place
  directory : fs.at? place = some .directory

theorem isRoot_of_directoryAt? {root : String} (h : fs.directoryAt? root = some place) :
    IsRoot fs root place := by
  obtain ⟨hlocate, hdir⟩ := directoryAt?_eq_some_iff.mp h
  obtain ⟨hne, hnul, hleads⟩ := Files.locate_eq_ok_iff.mp hlocate
  rw [Path.mem_toList_iff (by decide) (by decide)] at hnul
  exact ⟨hne, fun name hname hmem => hnul ⟨name, hname, hmem⟩, (Files.leads_names_iff hdir).mpr hleads, hdir⟩

theorem baseIsNoFile_of_directoryAt? (h : ∀ base, r.base = some base → fs.directoryAt? base ≠ none) :
    r.BaseIsNoFile fs := by
  intro base hr text hfile
  obtain ⟨place, hplace⟩ := Option.ne_none_iff_exists'.mp (h base hr)
  have hroot := isRoot_of_directoryAt? hplace
  rw [hroot.leads.foldl_step, hroot.directory] at hfile
  cases hfile

-- A file below the root of a listing.
structure IsFile (fs : Files) (place way : Path) : Prop where
  ne : way ≠ []
  names : ∀ name ∈ way, Path.IsName name
  leads : ∃ name around, way = name :: around ∧ fs.at? (around ++ place) = some .directory ∧
    fs.Leads place around.reverse (around ++ place)
  file : ∃ text, fs.at? (way ++ place) = some (.file text)

theorem isFile_of_at? (htree : fs.IsTree) (hne : way ≠ []) {text : Option String}
    (hat : fs.at? (way ++ place) = some (.file text)) : IsFile fs place way := by
  obtain ⟨name, around, rfl⟩ := List.exists_cons_of_ne_nil hne
  have hdir := (htree.directory_of_at? hat).1
  exact ⟨hne, htree.isName_of_mem hat, ⟨name, around, rfl, hdir, htree.leads_way hdir⟩, text, hat⟩

section
variable {root text : String} (hroot : IsRoot fs root place) (hway : IsFile fs place way)
include hroot hway

theorem names_pathBelow : Path.names (pathBelow root way) = Path.names root ++ way.reverse := by
  rw [pathBelow, Path.names_within hroot.ne (Path.isAbsolute_wayText hway.ne hway.names),
    Path.names_wayText hway.ne hway.names]

theorem isAbsolute_pathBelow : Path.isAbsolute (pathBelow root way) = Path.isAbsolute root :=
  Path.isAbsolute_within hroot.ne (Path.isAbsolute_wayText hway.ne hway.names)

-- Whatever is the same way as the path of a file leads to the file.
theorem locate_of_sameWay (h : Path.SameWay text (pathBelow root way)) :
    fs.locate text = .ok (way ++ place) := by
  obtain ⟨name, around, rfl, hdir, hleads⟩ := hway.leads
  have hname : Path.IsName name := hway.names name List.mem_cons_self
  have hlast : (Path.pieces text).getLast? = some name := by
    rw [h.last, pathBelow, Path.getLast?_pieces_within hroot.ne (Path.isAbsolute_wayText hway.ne hway.names),
      Path.pieces_wayText hway.ne hway.names]
    simp
  have hnames : Path.names text = (Path.names root ++ around.reverse) ++ [name] := by
    rw [h.names, names_pathBelow hroot hway, List.reverse_cons, List.append_assoc]
  refine Files.locate_of_names hname hlast hnames ?_ ?_ hdir
  · intro n hn
    rcases List.mem_append.mp hn with hn | hn
    · exact hroot.noNul n hn
    · exact (hway.names n (List.mem_cons_of_mem _ (List.mem_reverse.mp hn))).noNul
  · rw [start_eq_of_isAbsolute (h.absolute.trans (isAbsolute_pathBelow hroot hway))]
    exact Files.leads_append_iff.mpr ⟨place, hroot.leads, hleads⟩

-- The names on the path of a file spell its place.
theorem foldl_step_pathBelow :
    (Path.names (pathBelow root way)).foldl Path.step (fs.start (pathBelow root way)) = way ++ place := by
  obtain ⟨name, around, rfl, hdir, hleads⟩ := hway.leads
  rw [names_pathBelow hroot hway, start_eq_of_isAbsolute (isAbsolute_pathBelow hroot hway), List.reverse_cons,
    List.foldl_append, hroot.leads.foldl_step, List.foldl_append, hleads.foldl_step]
  exact Files.step_of_isName (hway.names name List.mem_cons_self) _

end

-- A path that is not below the base starts at the root, so the base does not matter for it.
theorem isAbsolute_of_below?_eq_none {base : String} (hbase : base ≠ "") (hr : r.base = some base)
    (hroot : IsRoot fs (r.pathOf dir) place) (hway : IsFile fs place way)
    (h : Path.below? base (pathBelow (r.pathOf dir) way) = none) :
    Path.isAbsolute (pathBelow (r.pathOf dir) way) = true := by
  by_contra hrelative
  rw [isAbsolute_pathBelow hroot hway] at hrelative
  have hpath : r.pathOf dir = Path.within base dir := by rw [pathOf, hr]
  have hdir : Path.isAbsolute dir = false := by
    by_contra habsolute
    have heq : Path.within base dir = dir := if_pos (.inl (Bool.not_eq_false _ ▸ habsolute))
    rw [hpath, heq] at hrelative
    exact habsolute (Bool.not_eq_true _ ▸ hrelative)
  have hanchor : Path.anchor base = Path.anchor (pathBelow (r.pathOf dir) way) := by
    rw [pathBelow, Path.anchor_within hroot.ne (Path.isAbsolute_wayText hway.ne hway.names), hpath,
      Path.anchor_within hbase hdir]
  have hnames : Path.names (pathBelow (r.pathOf dir) way) =
      Path.names base ++ (Path.names dir ++ way.reverse) := by
    rw [names_pathBelow hroot hway, hpath, Path.names_within hbase hdir, List.append_assoc]
  obtain ⟨id, hid⟩ := Path.exists_below? hbase hanchor hnames
  rw [h] at hid
  cases hid

-- The id of a file leads to it from the base.
theorem sameWay_pathOf_idOf (hbase : r.BaseIsNoFile fs) (hroot : IsRoot fs (r.pathOf dir) place)
    (hway : IsFile fs place way) :
    Path.SameWay (r.pathOf (r.idOf (pathBelow (r.pathOf dir) way))) (pathBelow (r.pathOf dir) way) := by
  cases hr : r.base with
  | none =>
      rw [idOf, hr]
      dsimp only
      rw [pathOf, hr]
      exact ⟨rfl, rfl, rfl⟩
  | some base =>
      rw [idOf, hr]
      dsimp only
      have hpath (id : String) : r.pathOf id = Path.within base id := by rw [pathOf, hr]
      by_cases hempty : base = ""
      · have hwithin (id : String) : Path.within "" id = id := if_pos (.inr rfl)
        have hbelow (text : String) : Path.below? "" text = some text := if_pos rfl
        subst hempty
        rw [hbelow, Option.getD_some, hpath, hwithin]
        exact ⟨rfl, rfl, rfl⟩
      cases hbelow : Path.below? base (pathBelow (r.pathOf dir) way) with
      | none =>
          have habsolute := isAbsolute_of_below?_eq_none hempty hr hroot hway hbelow
          have hwithin : Path.within base (pathBelow (r.pathOf dir) way) = pathBelow (r.pathOf dir) way :=
            if_pos (.inl habsolute)
          rw [Option.getD_none, hpath, hwithin]
          exact ⟨rfl, rfl, rfl⟩
      | some id =>
          rw [Option.getD_some, hpath]
          refine Path.sameWay_of_below? hempty hbelow fun hnames => ?_
          -- Otherwise the file would be the base.
          obtain ⟨text, hfile⟩ := hway.file
          have hspelled := foldl_step_pathBelow hroot hway
          have hstart : fs.start (pathBelow (r.pathOf dir) way) = fs.start base :=
            start_eq_of_isAbsolute (Path.isAbsolute_eq_of_below? hempty hbelow)
          rw [hnames, hstart] at hspelled
          exact hbase base hr text (by rw [hspelled]; exact hfile)

/-! ### Listings -/

-- The files that a listing of a directory stands for, with their texts, and what holds of their ids.
structure Listing (r : Resources) (fs : Files) (dir : String) (place : Path) (extensions : List String)
    (ids : List String) (files : List (Path × String)) : Prop where
  complete : ∀ p text, (p, text) ∈ files ↔ fs.at? p = some (.file (some text)) ∧ Files.IsBelow place p ∧
    ∃ extension ∈ extensions, p.head?.bind Path.extension? = some extension
  once : (files.map Prod.fst).Nodup
  named : List.Forall₂ (fun id file => ∃ way, file.1 = way ++ place ∧
    id = r.idOf (pathBelow (r.pathOf dir) way)) ids files
  ascending : ids.Pairwise fun id other =>
    List.Lex (· < ·) (Path.names (r.pathOf id)) (Path.names (r.pathOf other))
  read : List.Forall₂ (fun id file => r.packaged.lookup id = none →
    r.read fs id = .ok ⟨id, .file (r.pathOf id), file.2⟩) ids files

theorem list_of_directoryAt? (h : fs.directoryAt? (r.pathOf dir) = some place) (extensions : List String) :
    r.list fs dir extensions = .ok ((sortWays (fs.filesBelow (hasExtension extensions) place)).map fun way =>
      r.idOf (pathBelow (r.pathOf dir) way)) := by
  rw [list, h]
  rfl

theorem list_of_no_directory (h : fs.directoryAt? (r.pathOf dir) = none) (extensions : List String) :
    r.list fs dir extensions = .error (.sourceNotFound dir "not a directory") := by
  rw [list, h]

theorem hasExtension_iff (hne : way ≠ []) : hasExtension extensions way ↔
    ∃ extension ∈ extensions, (way ++ place).head?.bind Path.extension? = some extension := by
  rw [hasExtension, List.head?_append_of_ne_nil _ hne]
  cases way.head?.bind Path.extension? <;> simp

theorem read_of_locate {text : String} (hlocate : fs.locate (r.pathOf id) = .ok p)
    (hfile : fs.at? p = some (.file (some text))) (hpackaged : r.packaged.lookup id = none) :
    r.read fs id = .ok ⟨id, .file (r.pathOf id), text⟩ := by
  have hread : fs.readAt (r.pathOf id) = .ok text := by
    rw [Files.readAt, hlocate]
    exact Files.read_of_at? hfile
  rw [Resources.read, hpackaged]
  dsimp only
  rw [hread]

theorem exists_listing (htree : fs.IsTree) (htext : fs.AllText) (hbase : r.BaseIsNoFile fs)
    (hdir : fs.directoryAt? (r.pathOf dir) = some place) (extensions : List String) :
    ∃ ids files, r.list fs dir extensions = .ok ids ∧ r.Listing fs dir place extensions ids files := by
  have hroot := isRoot_of_directoryAt? hdir
  let ways := sortWays (fs.filesBelow (hasExtension extensions) place)
  have hmem (way : Path) : way ∈ ways ↔
      hasExtension extensions way ∧ way ≠ [] ∧ ∃ text, fs.at? (way ++ place) = some (.file text) :=
    mem_sortWays.trans htree.mem_filesBelow
  have hfile : ∀ way ∈ ways, IsFile fs place way := fun way hway =>
    have ⟨_, hne, text, hat⟩ := (hmem way).mp hway
    isFile_of_at? htree hne hat
  let id (way : Path) := r.idOf (pathBelow (r.pathOf dir) way)
  let text (way : Path) := ((fs.read (way ++ place)).toOption).getD ""
  have hsame : ∀ way ∈ ways, Path.SameWay (r.pathOf (id way)) (pathBelow (r.pathOf dir) way) :=
    fun way hway => sameWay_pathOf_idOf hbase hroot (hfile way hway)
  have hat : ∀ way ∈ ways, fs.at? (way ++ place) = some (.file (some (text way))) := by
    intro way hway
    obtain ⟨_, _, found, hfound⟩ := (hmem way).mp hway
    obtain ⟨content, rfl⟩ := Option.isSome_iff_exists.mp (htext _ _ hfound)
    rw [hfound, show text way = content by simp only [text, Files.read_of_at? hfound]; rfl]
  have hnodup : ways.Nodup :=
    (List.mergeSort_perm _ _).nodup_iff.mpr (htree.nodup_filesBelow _ place)
  refine ⟨ways.map id, ways.map fun way => (way ++ place, text way), list_of_directoryAt? hdir extensions,
    ⟨fun p content => ?_, ?_, ?_, ?_, ?_⟩⟩
  · constructor
    · intro hp
      obtain ⟨way, hway, heq⟩ := List.mem_map.mp hp
      cases heq
      obtain ⟨hextension, hne, -⟩ := (hmem way).mp hway
      exact ⟨hat way hway, Files.isBelow_iff.mpr ⟨way, hne, rfl⟩, (hasExtension_iff hne).mp hextension⟩
    · rintro ⟨hp, hbelow, hextension⟩
      obtain ⟨way, hne, rfl⟩ := Files.isBelow_iff.mp hbelow
      have hway : way ∈ ways := (hmem way).mpr ⟨(hasExtension_iff hne).mpr hextension, hne, _, hp⟩
      have hcontent := (hat way hway).symm.trans hp
      cases hcontent
      exact List.mem_map.mpr ⟨way, hway, rfl⟩
  · rw [List.map_map]
    exact hnodup.map fun way other heq => List.append_cancel_right heq
  · rw [List.forall₂_map_left_iff, List.forall₂_map_right_iff, List.forall₂_same]
    exact fun way _ => ⟨way, rfl, rfl⟩
  · rw [List.pairwise_map]
    refine (pairwise_sortWays (htree.nodup_filesBelow _ place)).imp_of_mem fun {way other} hway hother hlt => ?_
    rw [(hsame way hway).names, (hsame other hother).names, names_pathBelow hroot (hfile way hway),
      names_pathBelow hroot (hfile other hother)]
    exact List.Lex.append_left _ hlt _
  · rw [List.forall₂_map_left_iff, List.forall₂_map_right_iff, List.forall₂_same]
    exact fun way hway => read_of_locate (locate_of_sameWay hroot (hfile way hway) (hsame way hway))
      (hat way hway)

-- It does not matter in which order the entries come.
theorem list_congr (htree : fs.IsTree) (htree' : fs'.IsTree) (hcurrent : fs'.current = fs.current)
    (hat : ∀ p, fs'.at? p = fs.at? p) (r : Resources) (dir : String) (extensions : List String) :
    r.list fs' dir extensions = r.list fs dir extensions := by
  have hdirectory : fs'.directoryAt? (r.pathOf dir) = fs.directoryAt? (r.pathOf dir) := by
    refine Option.ext fun place => ?_
    rw [directoryAt?_eq_some_iff, directoryAt?_eq_some_iff, Files.locate_eq_ok_iff, Files.locate_eq_ok_iff,
      Files.leads_congr hat, hat, Files.start, Files.start, hcurrent]
  cases hdir : fs.directoryAt? (r.pathOf dir) with
  | none => rw [list_of_no_directory hdir, list_of_no_directory (hdirectory.trans hdir)]
  | some place =>
      have hperm : (fs'.filesBelow (hasExtension extensions) place).Perm
          (fs.filesBelow (hasExtension extensions) place) := by
        refine (List.perm_ext_iff_of_nodup (htree'.nodup_filesBelow ..) (htree.nodup_filesBelow ..)).mpr
          fun way => ?_
        rw [htree'.mem_filesBelow, htree.mem_filesBelow, hat]
      rw [list_of_directoryAt? hdir, list_of_directoryAt? (hdirectory.trans hdir), sortWays_eq_of_perm hperm]

end Resources

namespace Source
open Resources

variable {r : Resources} {fs : Files} {dir : String} {place : Path} {extensions ids : List String}
  {files : List (Path × String)}

-- The tree of the text of a document.
def document (id text : String) : Except Fault Tree :=
  match Tree.ofYaml? text with
  | none => .error (.malformedSource id Fault.unreadable)
  | some t =>
    if t.isMap then .ok t
    else .error (.malformedSource id ("top level must be a mapping, found " ++ t.kind.name))

-- The merged tree of the texts of documents, in their order.
def loadTexts (documents : List (String × String)) : Except Fault Tree := do
  match Tree.mergeAll? (← documents.mapM fun (id, text) => document id text) with
  | some t => return t
  | none => .error (.sourceNotFound "<none>" "empty source list")

theorem loadOne_eq (r : Resources) (fs : Files) (id : String) :
    loadOne r fs id = r.read fs id >>= fun resource => document id resource.text := rfl

-- A text that is packaged under an id goes before the file.
theorem load_of_listing (h : r.Listing fs dir place extensions ids files) :
    load r fs ids = loadTexts ((ids.zip files).map fun (id, file) => (id, (r.packaged.lookup id).getD file.2)) := by
  have hdocuments : ids.mapM (loadOne r fs) =
      ((ids.zip files).map fun (id, file) => (id, (r.packaged.lookup id).getD file.2)).mapM
        fun (id, text) => document id text := by
    have hread := h.read
    clear h
    induction hread with
    | nil => rfl
    | @cons id file ids files hfile hread ih =>
        have hone : loadOne r fs id = document id ((r.packaged.lookup id).getD file.2) := by
          rw [loadOne_eq]
          cases hpackaged : r.packaged.lookup id with
          | none => rw [hfile hpackaged]; rfl
          | some text => rw [Resources.read, hpackaged]; rfl
        rw [List.mapM_cons, List.zip_cons_cons, List.map_cons, List.mapM_cons, hone, ih]
  rw [load, hdocuments]
  rfl

theorem discover_eq_ok_iff : discover r fs dir = .ok ids ↔ r.list fs dir Source.extensions = .ok ids ∧ ids ≠ [] := by
  rw [discover]
  cases hlist : r.list fs dir Source.extensions with
  | error e => exact iff_of_false (fun h => by cases h) (fun h => by cases h.1)
  | ok found =>
      cases found with
      | nil =>
          refine iff_of_false (fun h => by cases h) fun h => h.2 ?_
          exact (Except.ok.inj h.1).symm
      | cons first more =>
          constructor
          · intro h
            cases h
            exact ⟨rfl, List.cons_ne_nil _ _⟩
          · intro h
            rw [← Except.ok.inj h.1]
            rfl

theorem discover_error_iff : (∃ e, discover r fs dir = .error e) ↔
    fs.directoryAt? (r.pathOf dir) = none ∨ r.list fs dir Source.extensions = .ok [] := by
  cases hdir : fs.directoryAt? (r.pathOf dir) with
  | none =>
      refine iff_of_true ⟨.sourceNotFound dir "not a directory", ?_⟩ (.inl rfl)
      rw [discover, list_of_no_directory hdir]
      rfl
  | some place =>
      have hlist := list_of_directoryAt? hdir Source.extensions
      constructor
      · rintro ⟨e, he⟩
        refine .inr (hlist.trans (congrArg _ ?_))
        by_contra hne
        rw [discover_eq_ok_iff.mpr ⟨hlist, hne⟩] at he
        cases he
      · rintro (h | h)
        · cases h
        · rw [discover, h]
          exact ⟨_, rfl⟩

-- The files below a directory that have one of the extensions are listed, each once and in strictly ascending
-- order, in whatever order entries come, and loading what is discovered merges their texts in that order.
theorem discovery_complete (htree : fs.IsTree) (htext : fs.AllText) (hbase : r.BaseIsNoFile fs) (dir : String) :
    (∀ extensions, match fs.directoryAt? (r.pathOf dir) with
      | none => r.list fs dir extensions = .error (.sourceNotFound dir "not a directory")
      | some place => ∃ ids files, r.list fs dir extensions = .ok ids ∧
          r.Listing fs dir place extensions ids files ∧
          load r fs ids = loadTexts
            ((ids.zip files).map fun (id, file) => (id, (r.packaged.lookup id).getD file.2))) ∧
      (∀ fs' : Files, fs'.IsTree → fs'.current = fs.current → (∀ p, fs'.at? p = fs.at? p) →
        ∀ extensions, r.list fs' dir extensions = r.list fs dir extensions) ∧
      ((∃ e, discover r fs dir = .error e) ↔
        fs.directoryAt? (r.pathOf dir) = none ∨ r.list fs dir Source.extensions = .ok []) ∧
      ∀ ids, discover r fs dir = .ok ids → r.list fs dir Source.extensions = .ok ids := by
  refine ⟨fun extensions => ?_, fun fs' htree' hcurrent hat => list_congr htree htree' hcurrent hat r dir,
    discover_error_iff, fun ids hids => (discover_eq_ok_iff.mp hids).1⟩
  cases hdir : fs.directoryAt? (r.pathOf dir) with
  | none => exact list_of_no_directory hdir extensions
  | some place =>
      obtain ⟨ids, files, hlist, hlisting⟩ := exists_listing htree htext hbase hdir extensions
      exact ⟨ids, files, hlist, hlisting, load_of_listing hlisting⟩

-- Documents beside the base, one of them in a directory of its own, and notes.
def besideFiles : Files :=
  ⟨[(["home"], .directory), (["conf", "home"], .directory), (["defs", "home"], .directory),
    (["prices", "defs", "home"], .directory), (["z.yml", "defs", "home"], .file (some "scraper: z")),
    (["a.yaml", "prices", "defs", "home"], .file (some "scraper: a")),
    (["notes.md", "defs", "home"], .file (some ""))], ["home"]⟩

theorem isTree_besideFiles : besideFiles.IsTree := by
  refine ⟨by decide, ?_⟩
  simp only [besideFiles, List.forall_mem_cons]
  refine ⟨⟨_, _, rfl, ?_, by decide⟩, ⟨_, _, rfl, ?_, by decide⟩, ⟨_, _, rfl, ?_, by decide⟩,
    ⟨_, _, rfl, ?_, by decide⟩, ⟨_, _, rfl, ?_, by decide⟩, ⟨_, _, rfl, ?_, by decide⟩,
    ⟨_, _, rfl, ?_, by decide⟩, List.forall_mem_nil _⟩ <;>
  exact ⟨by decide, by decide, by decide, by decide⟩

theorem allText_besideFiles : besideFiles.AllText := by
  intro p text hat
  by_cases hp : p = []
  · subst hp
    cases hat
  · have hentry := (isTree_besideFiles.at?_eq_iff hp).mp hat
    have hall : ∀ entry ∈ besideFiles.entries, entry.2 ≠ .file none := by decide
    cases text with
    | none => exact absurd rfl (hall _ hentry)
    | some text => rfl

theorem discovery_complete_beside :
    besideFiles.IsTree ∧ besideFiles.AllText ∧ (below (some "conf/")).BaseIsNoFile besideFiles ∧
      besideFiles.directoryAt? ((below (some "conf/")).pathOf "../defs") = some ["defs", "home"] ∧
      ∃ files, (below (some "conf/")).list besideFiles "../defs" Source.extensions =
          .ok ["../defs/prices/a.yaml", "../defs/z.yml"] ∧
        (below (some "conf/")).Listing besideFiles "../defs" ["defs", "home"] Source.extensions
          ["../defs/prices/a.yaml", "../defs/z.yml"] files := by
  have hbase : (below (some "conf/")).BaseIsNoFile besideFiles := by
    refine baseIsNoFile_of_directoryAt? fun base hr => ?_
    cases hr
    decide +kernel
  have hdir : besideFiles.directoryAt? ((below (some "conf/")).pathOf "../defs") = some ["defs", "home"] := by
    decide +kernel
  have hfound : besideFiles.filesBelow (hasExtension Source.extensions) ["defs", "home"] =
      [["z.yml"], ["a.yaml", "prices"]] := by decide +kernel
  have hsorted : sortWays [["z.yml"], ["a.yaml", "prices"]] = [["a.yaml", "prices"], ["z.yml"]] := by
    have hle : namesLe ["z.yml"] ["prices", "a.yaml"] = false := by decide
    simp [sortWays, List.mergeSort, List.MergeSort.Internal.splitInTwo, hle]
  have hids : (below (some "conf/")).list besideFiles "../defs" Source.extensions =
      .ok ["../defs/prices/a.yaml", "../defs/z.yml"] := by
    rw [list_of_directoryAt? hdir, hfound, hsorted]
    decide +kernel
  have hall := (discovery_complete isTree_besideFiles allText_besideFiles hbase "../defs").1 Source.extensions
  rw [hdir] at hall
  obtain ⟨ids, files, hlist, hlisting, -⟩ := hall
  cases hids.symm.trans hlist
  exact ⟨isTree_besideFiles, allText_besideFiles, hbase, hdir, files, hids, hlisting⟩

end Source
end ScraperTimeline
