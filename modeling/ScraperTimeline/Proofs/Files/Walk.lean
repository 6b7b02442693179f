import ScraperTimeline.Proofs.Files.Basic
import Mathlib.Algebra.Order.Ring.Nat
import Mathlib.Data.List.Nodup
import Mathlib.Data.List.Perm.Basic

/-!
Walks through directories. In a tree of files every directory waits once, so a walk finds each file below
the directory it starts in once, in whatever order the entries come.
-/
namespace ScraperTimeline

-- What may stand between slashes and leads somewhere by its name.
structure Path.IsName (name : String) : Prop where
  noSlash : '/' ∉ name.toList
  noNul : '\x00' ∉ name.toList
  somewhere : leadsNowhere name = false
  notBack : name ≠ ".."

namespace Files

-- Each place once, and each in a directory.
structure IsTree (fs : Files) : Prop where
  once : (fs.entries.map Prod.fst).Nodup
  inside : ∀ entry ∈ fs.entries, ∃ name dir, entry.1 = name :: dir ∧ Path.IsName name ∧
    fs.at? dir = some .directory

variable {fs fs' : Files} {p dir root way : Path} {e : Entry} {name : String} {text : Option String}
  {wanted : Path → Bool}

/-! ### Entries of a tree -/

theorem mem_children : (name, e) ∈ fs.children dir ↔ (name :: dir, e) ∈ fs.entries := by
  simp only [children, List.mem_filterMap]
  constructor
  · rintro ⟨⟨_ | ⟨last, around⟩, other⟩, hentry, hchild⟩
    · cases hchild
    · dsimp only at hchild
      split at hchild
      next haround =>
        cases hchild
        exact haround ▸ hentry
      next => cases hchild
  · intro hentry
    exact ⟨_, hentry, by simp⟩

namespace IsTree

theorem nodup (h : fs.IsTree) : fs.entries.Nodup := h.once.of_map

theorem nodup_children (h : fs.IsTree) (dir : Path) : (fs.children dir).Nodup := by
  refine h.nodup.filterMap fun entry other child hentry hother => ?_
  obtain ⟨_ | ⟨last, around⟩, e⟩ := entry
  · cases hentry
  obtain ⟨_ | ⟨last', around'⟩, e'⟩ := other
  · cases hother
  simp only [Option.mem_def, Option.ite_none_right_eq_some] at hentry hother
  obtain ⟨rfl, hentry⟩ := hentry
  obtain ⟨rfl, hother⟩ := hother
  cases hentry
  cases hother
  rfl

theorem at?_eq_iff (h : fs.IsTree) (hp : p ≠ []) : fs.at? p = some e ↔ (p, e) ∈ fs.entries := by
  rw [at?, if_neg hp]
  constructor
  · intro hlookup
    obtain ⟨before, after, heq, -⟩ := List.lookup_eq_some_iff.mp hlookup
    rw [heq]
    simp
  · intro hentry
    obtain ⟨before, after, heq⟩ := List.append_of_mem hentry
    refine List.lookup_eq_some_iff.mpr ⟨before, after, heq, fun other hother => ?_⟩
    have honce := h.once
    rw [heq, List.map_append, List.nodup_append] at honce
    exact bne_iff_ne.mpr fun hsame => honce.2.2 other.1 (List.mem_map_of_mem hother) p (by simp) hsame.symm

theorem eq_of_mem (h : fs.IsTree) {e' : Entry} (hentry : (p, e) ∈ fs.entries)
    (hother : (p, e') ∈ fs.entries) : e = e' := by
  obtain ⟨name, dir, hplace, -⟩ := h.inside _ hentry
  have hne : p ≠ [] := by simp [show p = name :: dir from hplace]
  exact Option.some.inj (((h.at?_eq_iff hne).mpr hentry).symm.trans ((h.at?_eq_iff hne).mpr hother))

theorem directory_of_at? (h : fs.IsTree) (hat : fs.at? (name :: dir) = some e) :
    fs.at? dir = some .directory ∧ Path.IsName name := by
  obtain ⟨last, around, heq, hname, hdir⟩ := h.inside _ ((h.at?_eq_iff (List.cons_ne_nil _ _)).mp hat)
  cases heq
  exact ⟨hdir, hname⟩

-- What is around an entry is a directory.
theorem directory_of_append (h : fs.IsTree) (hway : way ≠ []) (hat : fs.at? (way ++ dir) = some e) :
    fs.at? dir = some .directory := by
  induction way generalizing e with
  | nil => exact (hway rfl).elim
  | cons name way ih =>
      have hdir := (h.directory_of_at? hat).1
      by_cases hlast : way = []
      · rwa [hlast] at hdir
      · exact ih hlast hdir

end IsTree

/-! ### What is below a directory -/

def IsBelow (dir p : Path) : Prop := dir <:+ p ∧ dir ≠ p

instance (dir p : Path) : Decidable (IsBelow dir p) := inferInstanceAs (Decidable (_ ∧ _))

theorem isBelow_iff : IsBelow dir p ↔ ∃ way, way ≠ [] ∧ p = way ++ dir := by
  constructor
  · rintro ⟨⟨way, rfl⟩, hne⟩
    exact ⟨way, fun hnil => hne (by rw [hnil, List.nil_append]), rfl⟩
  · rintro ⟨way, hway, rfl⟩
    exact ⟨List.suffix_append .., fun heq => hway (List.self_eq_append_left.mp heq)⟩

-- Whatever is below a directory is in it or below something in it.
theorem isBelow_iff_cons : IsBelow dir p ↔ ∃ name, p = name :: dir ∨ IsBelow (name :: dir) p := by
  simp only [isBelow_iff]
  constructor
  · rintro ⟨way, hway, rfl⟩
    obtain ⟨inner, name, rfl⟩ := (List.eq_nil_or_concat' way).resolve_left hway
    refine ⟨name, ?_⟩
    cases inner with
    | nil => exact .inl rfl
    | cons last inner => exact .inr ⟨last :: inner, by simp, by simp⟩
  · rintro ⟨name, rfl | ⟨way, -, rfl⟩⟩
    · exact ⟨[name], by simp, rfl⟩
    · exact ⟨way ++ [name], by simp, by simp⟩

def entriesBelow (fs : Files) (dir : Path) : List (Path × Entry) :=
  fs.entries.filter fun entry => IsBelow dir entry.1

theorem mem_entriesBelow : (p, e) ∈ fs.entriesBelow dir ↔ (p, e) ∈ fs.entries ∧ IsBelow dir p := by
  simp [entriesBelow]

-- An entry of a directory with all that is below it.
def branch (fs : Files) (dir : Path) (child : String × Entry) : List (Path × Entry) :=
  (child.1 :: dir, child.2) :: fs.entriesBelow (child.1 :: dir)

theorem suffix_of_mem_branch {child : String × Entry} {entry : Path × Entry}
    (h : entry ∈ fs.branch dir child) : child.1 :: dir <:+ entry.1 := by
  rcases List.mem_cons.mp h with rfl | h
  · exact List.suffix_refl _
  · exact (mem_entriesBelow.mp h).2.1

namespace IsTree

theorem mem_branches (h : fs.IsTree) : (p, e) ∈ (fs.children dir).flatMap (fs.branch dir) ↔
    (p, e) ∈ fs.entriesBelow dir := by
  rw [List.mem_flatMap, mem_entriesBelow, isBelow_iff_cons]
  constructor
  · rintro ⟨⟨name, child⟩, hchild, hbranch⟩
    rcases List.mem_cons.mp hbranch with heq | hbelow
    · cases heq
      exact ⟨mem_children.mp hchild, name, .inl rfl⟩
    · obtain ⟨hentry, hbelow⟩ := mem_entriesBelow.mp hbelow
      exact ⟨hentry, name, .inr hbelow⟩
  · rintro ⟨hentry, name, rfl | hbelow⟩
    · exact ⟨(name, e), mem_children.mpr hentry, List.mem_cons_self⟩
    · obtain ⟨way, hway, rfl⟩ := isBelow_iff.mp hbelow
      have hat := (h.at?_eq_iff (by simp)).mpr hentry
      have hdir := (h.at?_eq_iff (List.cons_ne_nil _ _)).mp (h.directory_of_append hway hat)
      exact ⟨(name, .directory), mem_children.mpr hdir,
        List.mem_cons_of_mem _ (mem_entriesBelow.mpr ⟨hentry, hbelow⟩)⟩

theorem nodup_branches (h : fs.IsTree) (dir : Path) :
    ((fs.children dir).flatMap (fs.branch dir)).Nodup := by
  refine List.nodup_flatMap.mpr ⟨fun child _ => ?_, ?_⟩
  · refine List.nodup_cons.mpr ⟨fun hself => ?_, h.nodup.filter _⟩
    exact (mem_entriesBelow.mp hself).2.2 rfl
  · refine (h.nodup_children dir).imp_of_mem fun {child other} hchild hother hne entry hentry hentry' => hne ?_
    -- Two names at one depth above the same place are one name.
    have hsame : child.1 :: dir = other.1 :: dir :=
      (List.suffix_of_suffix_length_le (suffix_of_mem_branch hentry) (suffix_of_mem_branch hentry')
        (by simp)).eq_of_length (by simp)
    obtain ⟨name, e⟩ := child
    obtain ⟨name', e'⟩ := other
    obtain rfl : name = name' := (List.cons.inj hsame).1
    rw [h.eq_of_mem (mem_children.mp hchild) (mem_children.mp hother)]

theorem perm_branches (h : fs.IsTree) (dir : Path) :
    (fs.entriesBelow dir).Perm ((fs.children dir).flatMap (fs.branch dir)) :=
  (List.perm_ext_iff_of_nodup (h.nodup.filter _) (h.nodup_branches dir)).mpr fun _ => h.mem_branches.symm

theorem entriesBelow_of_file (h : fs.IsTree) (hat : fs.at? p = some (.file text)) :
    fs.entriesBelow p = [] := by
  refine List.filter_eq_nil_iff.mpr fun entry hentry hbelow => ?_
  obtain ⟨way, hway, hplace⟩ := isBelow_iff.mp (of_decide_eq_true hbelow)
  have hentry' : (way ++ p, entry.2) ∈ fs.entries := hplace ▸ hentry
  have hdir := h.directory_of_append hway ((h.at?_eq_iff (by simp [hway])).mpr hentry')
  rw [hat] at hdir
  cases hdir

end IsTree

/-! ### Steps of a walk -/

-- The way from a directory to a file.
def fileWay? (root : Path) : Path × Entry → Option Path
  | (p, .file _) => some (p.take (p.length - root.length))
  | (_, .directory) => none

-- The ways to the wanted files below a directory, which is told by the way to it.
def wantedBelow (fs : Files) (wanted : Path → Bool) (root way : Path) : List Path :=
  ((fs.entriesBelow (way ++ root)).filterMap (fileWay? root)).filter wanted

-- How many steps there are at most for directories that wait.
def stepsFor (fs : Files) (root : Path) (waiting : List Path) : Nat :=
  (waiting.map fun way => (fs.entriesBelow (way ++ root)).length + 1).sum

theorem fileWay?_append (way root : Path) (text : Option String) :
    fileWay? root (way ++ root, .file text) = some way := by
  rw [fileWay?, List.length_append, Nat.add_sub_cancel, List.take_left]

-- The wanted file that an entry is, and what is wanted below the directory that it is.
def wantedEntry (wanted : Path → Bool) (way : Path) : String × Entry → List Path
  | (name, .file _) => [name :: way].filter wanted
  | (_, .directory) => []

def wantedInside (fs : Files) (wanted : Path → Bool) (root way : Path) : String × Entry → List Path
  | (_, .file _) => []
  | (name, .directory) => fs.wantedBelow wanted root (name :: way)

theorem filter_filesIn (way : Path) (children : List (String × Entry)) :
    (filesIn way children).filter wanted = children.flatMap (wantedEntry wanted way) := by
  induction children with
  | nil => rfl
  | cons child children ih =>
      obtain ⟨name, e⟩ := child
      rw [List.flatMap_cons, ← ih]
      cases e with
      | directory => rfl
      | file text => exact List.filter_append [name :: way] _

theorem flatMap_directoriesIn (root way : Path) (children : List (String × Entry)) :
    (directoriesIn way children).flatMap (fs.wantedBelow wanted root) =
      children.flatMap (fs.wantedInside wanted root way) := by
  induction children with
  | nil => rfl
  | cons child children ih =>
      obtain ⟨name, e⟩ := child
      rw [List.flatMap_cons, ← ih]
      cases e with
      | directory => rfl
      | file text => rfl

theorem stepsFor_append (root : Path) (waiting more : List Path) :
    fs.stepsFor root (waiting ++ more) = fs.stepsFor root waiting + fs.stepsFor root more := by
  rw [stepsFor, List.map_append, List.sum_append]
  rfl

theorem stepsFor_reverse (root : Path) (waiting : List Path) :
    fs.stepsFor root waiting.reverse = fs.stepsFor root waiting := by
  rw [stepsFor, List.map_reverse, List.sum_reverse]
  rfl

namespace IsTree

-- A directory takes one step, and for the directories in it there are as many as entries below it.
theorem stepsFor_directoriesIn (h : fs.IsTree) (root way : Path) :
    fs.stepsFor root (directoriesIn way (fs.children (way ++ root))) ≤
      (fs.entriesBelow (way ++ root)).length := by
  rw [(h.perm_branches (way ++ root)).length_eq, List.length_flatMap]
  generalize fs.children (way ++ root) = children
  induction children with
  | nil => exact Nat.le_refl _
  | cons child children ih =>
      obtain ⟨name, e⟩ := child
      rw [List.map_cons, List.sum_cons]
      cases e with
      | directory => exact Nat.add_le_add_left ih _
      | file text => exact Nat.le_trans ih (Nat.le_add_left _ _)

theorem wantedBelow_branch (h : fs.IsTree) (wanted : Path → Bool) (root way : Path) {child : String × Entry}
    (hchild : child ∈ fs.children (way ++ root)) :
    ((fs.branch (way ++ root) child).filterMap (fileWay? root)).filter wanted =
      wantedEntry wanted way child ++ fs.wantedInside wanted root way child := by
  obtain ⟨name, e⟩ := child
  cases e with
  | directory => rfl
  | file text =>
      have hat := (h.at?_eq_iff (List.cons_ne_nil _ _)).mpr (mem_children.mp hchild)
      rw [branch, h.entriesBelow_of_file hat, List.filterMap_cons, ← List.cons_append, fileWay?_append]
      exact (List.append_nil _).symm

-- What is wanted below a directory is in it or below the directories in it.
theorem perm_wantedBelow (h : fs.IsTree) (wanted : Path → Bool) (root way : Path) :
    ((filesIn way (fs.children (way ++ root))).filter wanted ++
        (directoriesIn way (fs.children (way ++ root))).flatMap (fs.wantedBelow wanted root)).Perm
      (fs.wantedBelow wanted root way) := by
  have hbranches := ((h.perm_branches (way ++ root)).filterMap (fileWay? root)).filter wanted
  refine List.Perm.trans ?_ hbranches.symm
  rw [List.filterMap_flatMap, List.filter_flatMap,
    List.flatMap_congr fun child hchild => h.wantedBelow_branch wanted root way hchild, filter_filesIn,
    flatMap_directoriesIn]
  exact List.flatMap_append_perm ..

-- A walk adds what is wanted below the directories that wait, if it has enough steps.
theorem perm_walk (h : fs.IsTree) (wanted : Path → Bool) (root : Path) {fuel : Nat}
    {waiting found : List Path} (hfuel : fs.stepsFor root waiting ≤ fuel) :
    (fs.walk wanted root fuel waiting found).Perm
      (found ++ waiting.flatMap (fs.wantedBelow wanted root)) := by
  induction fuel generalizing waiting found with
  | zero =>
      cases waiting with
      | nil => rw [walk, List.flatMap_nil, List.append_nil]
      | cons way waiting => rw [stepsFor, List.map_cons, List.sum_cons] at hfuel; omega
  | succ fuel ih =>
      cases waiting with
      | nil => rw [walk, List.flatMap_nil, List.append_nil]; exact Nat.succ_ne_zero fuel
      | cons way waiting =>
          have hsteps : fs.stepsFor root
              ((directoriesIn way (fs.children (way ++ root))).reverse ++ waiting) ≤ fuel := by
            have hinside := h.stepsFor_directoriesIn root way
            rw [stepsFor, List.map_cons, List.sum_cons, ← stepsFor] at hfuel
            rw [stepsFor_append, stepsFor_reverse]
            omega
          rw [walk]
          refine (ih hsteps).trans ?_
          rw [List.append_assoc, List.flatMap_append, List.flatMap_cons]
          refine List.Perm.append_left found ?_
          rw [← List.append_assoc]
          refine List.Perm.append_right _ (List.Perm.trans ?_ (h.perm_wantedBelow wanted root way))
          exact List.Perm.append_left _ ((List.reverse_perm _).flatMap_right _)

theorem perm_filesBelow (h : fs.IsTree) (wanted : Path → Bool) (dir : Path) :
    (fs.filesBelow wanted dir).Perm (fs.wantedBelow wanted dir []) := by
  have hsteps : fs.stepsFor dir [[]] ≤ fs.entries.length + 1 := by
    have hlength : (fs.entriesBelow dir).length ≤ fs.entries.length := List.length_filter_le ..
    simpa [stepsFor] using hlength
  have hwalk : (fs.filesBelow wanted dir).Perm ([] ++ [[]].flatMap (fs.wantedBelow wanted dir)) :=
    h.perm_walk wanted dir hsteps
  rwa [List.nil_append, List.flatMap_singleton] at hwalk

end IsTree

/-! ### What a walk finds -/

theorem mem_fileWays : way ∈ (fs.entriesBelow root).filterMap (fileWay? root) ↔
    way ≠ [] ∧ ∃ text, (way ++ root, .file text) ∈ fs.entries := by
  rw [List.mem_filterMap]
  constructor
  · rintro ⟨⟨p, _ | text⟩, hbelow, hway⟩
    · cases hway
    · obtain ⟨hentry, hbelow⟩ := mem_entriesBelow.mp hbelow
      obtain ⟨found, hne, rfl⟩ := isBelow_iff.mp hbelow
      rw [fileWay?_append] at hway
      cases hway
      exact ⟨hne, text, hentry⟩
  · rintro ⟨hne, text, hentry⟩
    exact ⟨_, mem_entriesBelow.mpr ⟨hentry, isBelow_iff.mpr ⟨way, hne, rfl⟩⟩, fileWay?_append ..⟩

namespace IsTree

theorem mem_filesBelow (h : fs.IsTree) : way ∈ fs.filesBelow wanted dir ↔
    wanted way ∧ way ≠ [] ∧ ∃ text, fs.at? (way ++ dir) = some (.file text) := by
  rw [(h.perm_filesBelow wanted dir).mem_iff, wantedBelow, List.mem_filter, List.nil_append, mem_fileWays,
    and_comm]
  refine and_congr_right fun _ => and_congr_right fun hne => exists_congr fun text => ?_
  rw [h.at?_eq_iff (by simp [hne])]

theorem nodup_filesBelow (h : fs.IsTree) (wanted : Path → Bool) (dir : Path) :
    (fs.filesBelow wanted dir).Nodup := by
  refine (h.perm_filesBelow wanted dir).nodup_iff.mpr (List.Nodup.filter _ ?_)
  rw [List.nil_append, List.Nodup, List.pairwise_filterMap]
  refine (h.nodup.filter _).imp_of_mem fun {entry other} hentry hother hne way hway way' hway' heq => hne ?_
  obtain ⟨p, e⟩ := entry
  obtain ⟨q, e'⟩ := other
  obtain ⟨hentry, hbelow⟩ := mem_entriesBelow.mp hentry
  obtain ⟨hother, hbelow'⟩ := mem_entriesBelow.mp hother
  obtain ⟨first, -, rfl⟩ := isBelow_iff.mp hbelow
  obtain ⟨second, -, rfl⟩ := isBelow_iff.mp hbelow'
  cases e with
  | directory => cases hway
  | file text =>
      cases e' with
      | directory => cases hway'
      | file text' =>
          rw [fileWay?_append] at hway hway'
          cases hway
          cases hway'
          subst heq
          rw [h.eq_of_mem hentry hother]

end IsTree

end Files
end ScraperTimeline
