import ScraperTimeline.Proofs.Tree.Fields
import ScraperTimeline.Schema.Contract

/-!
Pointers. The segments of a pointer are escaped, so that a key is read back from its segment and the places
below one key are told apart from those below another, also where one key begins like the other.
-/
namespace ScraperTimeline.Schema

def escape (c : Char) : List Char :=
  if c = '~' then ['~', '0'] else if c = '/' then ['~', '1'] else [c]

theorem toList_segment (key : String) : (segment key).toList = '/' :: key.toList.flatMap escape := by
  rw [segment, String.toList_ofList]
  rfl

theorem slash_notMem_escape (c : Char) : '/' ∉ escape c := by
  unfold escape
  split
  next => decide
  next =>
    split
    next => decide
    next hslash => simpa using Ne.symm hslash

theorem slash_notMem_escaped (cs : List Char) : '/' ∉ cs.flatMap escape := by
  rw [List.mem_flatMap]
  rintro ⟨c, -, hc⟩
  exact slash_notMem_escape c hc

theorem unescaped_escape_append (c : Char) (rest : List Char) :
    unescaped (escape c ++ rest) = c :: unescaped rest := by
  unfold escape
  split
  next htilde =>
    subst htilde
    rfl
  next htilde =>
    split
    next hslash =>
      subst hslash
      rfl
    next => rw [List.singleton_append, unescaped] <;> simp [htilde]

theorem unescaped_escaped (cs : List Char) : unescaped (cs.flatMap escape) = cs := by
  induction cs with
  | nil => rfl
  | cons c rest ih => rw [List.flatMap_cons, unescaped_escape_append, ih]

/-! ### Places -/

-- Whether a place is the one that a pointer names or one below it.
def covers (pointer place : String) : Bool :=
  place == pointer || (pointer ++ "/").toList.isPrefixOf place.toList

variable {pointer place path key other : String}

theorem covers_iff : covers pointer place ↔
    ∃ rest, place.toList = pointer.toList ++ rest ∧ (rest = [] ∨ ∃ below, rest = '/' :: below) := by
  rw [covers, Bool.or_eq_true, beq_iff_eq, List.isPrefixOf_iff_prefix, ← String.toList_inj,
    String.toList_append]
  constructor
  · rintro (heq | ⟨below, heq⟩)
    · exact ⟨[], by rw [heq, List.append_nil], .inl rfl⟩
    · exact ⟨'/' :: below, by rw [← heq, List.append_assoc]; rfl, .inr ⟨below, rfl⟩⟩
  · rintro ⟨rest, heq, rfl | ⟨below, rfl⟩⟩
    · exact .inl (by rw [heq, List.append_nil])
    · exact .inr ⟨below, by rw [heq, List.append_assoc]; rfl⟩

theorem covers_self (pointer : String) : covers pointer pointer := by simp [covers]

theorem covers_trans (h : covers pointer path) (hplace : covers path place) : covers pointer place := by
  rw [covers_iff] at h hplace ⊢
  obtain ⟨middle, hpath, hmiddle⟩ := h
  obtain ⟨rest, hrest, hbelow⟩ := hplace
  refine ⟨middle ++ rest, by rw [hrest, hpath, List.append_assoc], ?_⟩
  rcases hmiddle with rfl | ⟨below, rfl⟩
  · exact hbelow
  · exact .inr ⟨below ++ rest, rfl⟩

theorem covers_append_segment (path key : String) : covers path (path ++ segment key) :=
  covers_iff.mpr ⟨(segment key).toList, String.toList_append, .inr ⟨_, toList_segment key⟩⟩

-- The pointer that leads along keys.
def pointerTo : List String → String
  | [] => ""
  | key :: rest => segment key ++ pointerTo rest

theorem covers_append_pointerTo (path : String) (keys : List String) : covers path (path ++ pointerTo keys) := by
  induction keys generalizing path with
  | nil =>
      rw [pointerTo, String.append_empty]
      exact covers_self path
  | cons key rest ih =>
      rw [pointerTo, ← String.append_assoc]
      exact covers_trans (covers_append_segment path key) (ih _)

theorem covers_append_slash (path step : String) : covers path (path ++ "/" ++ step) := by
  rw [covers_iff, String.append_assoc]
  exact ⟨("/" ++ step).toList, String.toList_append, .inr ⟨step.toList, String.toList_append⟩⟩

theorem covers_append_segment_iff : covers (path ++ segment key) place ↔ ∃ rest,
    place.toList = path.toList ++ '/' :: (key.toList.flatMap escape ++ rest) ∧
      (rest = [] ∨ ∃ below, rest = '/' :: below) := by
  simp only [covers_iff, String.toList_append, toList_segment, List.append_assoc, List.cons_append]

-- What stands before a slash, or before the end, where it has no slash itself.
private theorem takeWhile_slash {cs rest : List Char} (hcs : '/' ∉ cs)
    (hrest : rest = [] ∨ ∃ below, rest = '/' :: below) : (cs ++ rest).takeWhile (· ≠ '/') = cs := by
  rw [List.takeWhile_append_of_pos fun c hc => by simpa using fun h : c = '/' => hcs (h ▸ hc)]
  rcases hrest with rfl | ⟨below, rfl⟩ <;> simp

-- A place is below one key of a mapping at most.
theorem eq_of_covers (h : covers (path ++ segment key) place) (hother : covers (path ++ segment other) place) :
    key = other := by
  obtain ⟨rest, hplace, hrest⟩ := covers_append_segment_iff.mp h
  obtain ⟨rest', hplace', hrest'⟩ := covers_append_segment_iff.mp hother
  have hsame := (List.cons.inj (List.append_cancel_left (hplace.symm.trans hplace'))).2
  have hescaped : key.toList.flatMap escape = other.toList.flatMap escape := by
    rw [← takeWhile_slash (slash_notMem_escaped _) hrest, hsame,
      takeWhile_slash (slash_notMem_escaped _) hrest']
  rw [← String.toList_inj, ← unescaped_escaped key.toList, hescaped, unescaped_escaped]

theorem not_covers_around : ¬covers (path ++ segment key) path := by
  rw [covers_append_segment_iff]
  rintro ⟨rest, heq, -⟩
  simpa using congrArg List.length heq

end ScraperTimeline.Schema
