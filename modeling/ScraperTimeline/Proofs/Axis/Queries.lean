import ScraperTimeline.Proofs.Axis.Declared
import ScraperTimeline.Proofs.Pipeline.Contracts

/-!
The queries of a version. What is asked for is taken as a path, so it finds the key that is equal to it, unless
that is empty or has a slash in it.
-/
namespace ScraperTimeline
open ScraperTimeline.Normal Shape

namespace Tree

/-! ### Paths -/

theorem segments_append {piece : String} (hslash : '/' ∉ piece.toList) (hne : piece ≠ "") (rest : String) :
    segments (piece ++ "/" ++ rest) = piece :: segments rest := by
  have hsplit : Text.split '/' (piece ++ "/" ++ rest).toList = piece.toList :: Text.split '/' rest.toList := by
    rw [← Text.split_append hslash]
    simp
  rw [segments, hsplit]
  simp [segments, hne]

theorem segments_slash (rest : String) : segments ("/" ++ rest) = segments rest := by
  have hsplit : Text.split '/' ("/" ++ rest).toList = [] :: Text.split '/' rest.toList := by
    rw [← Text.split_append List.not_mem_nil]
    simp
  rw [segments, hsplit]
  simp [segments]

theorem segments_of_notMem {piece : String} (hslash : '/' ∉ piece.toList) (hne : piece ≠ "") :
    segments piece = [piece] := by
  rw [segments, Text.split_of_notMem hslash]
  simp [hne]

theorem segments_query (kind : AxisKind) (type : String) :
    segments ("/axis/" ++ kind.key ++ "/query/" ++ type) = "axis" :: kind.key :: "query" :: segments type := by
  have hpointer : "/axis/" ++ kind.key ++ "/query/" ++ type =
      "/" ++ ("axis" ++ "/" ++ (kind.key ++ "/" ++ ("query" ++ "/" ++ type))) := by
    simp [← String.toList_inj]
  have hkey : '/' ∉ kind.key.toList ∧ kind.key ≠ "" := by cases kind <;> decide
  rw [hpointer, segments_slash, segments_append (by decide) (by decide), segments_append hkey.1 hkey.2,
    segments_append (by decide) (by decide)]

-- The queries that a body declares for a kind.
def queries? (kind : AxisKind) (body : Tree) : Option (List (String × Tree)) :=
  (((body.field? "axis").bind (field? kind.key)).bind (field? "query")).bind fields?

section
variable {queries : List (String × Tree)}

-- Below texts there is nothing.
theorem follow?_texts (htexts : Values IsText queries) {path : List String} {t : Tree} (hne : path ≠ []) :
    (Tree.map queries).follow? path = some t ↔ ∃ key, path = [key] ∧ queries.lookup key = some t := by
  obtain ⟨key, rest, rfl⟩ := List.exists_cons_of_ne_nil hne
  rw [follow?, child?]
  cases hfound : queries.lookup key with
  | none => simp [hfound]
  | some found =>
      obtain ⟨s, rfl⟩ := htexts _ (Fields.mem_of_lookup hfound)
      cases rest with
      | nil => simp [follow?, hfound]
      | cons next rest => simp [follow?, child?]

theorem text?_follow?_texts (htexts : Values IsText queries) (path : List String) (s : String) :
    ((Tree.map queries).follow? path).bind text? = some s ↔
      ∃ key, path = [key] ∧ queries.lookup key = some (.string s) := by
  cases path with
  | nil => simp [follow?, text?]
  | cons key rest =>
      simp only [Option.bind_eq_some_iff, follow?_texts htexts (List.cons_ne_nil key rest)]
      constructor
      · rintro ⟨t, ⟨key, hpath, hfound⟩, ht⟩
        obtain ⟨text, rfl⟩ := htexts _ (Fields.mem_of_lookup hfound)
        obtain rfl : text = s := Option.some.inj ht
        exact ⟨key, hpath, hfound⟩
      · rintro ⟨key, hpath, hfound⟩
        exact ⟨_, ⟨key, hpath, hfound⟩, rfl⟩

end
end Tree

section
variable {done : List Pass} {t : Tree}

-- What stands at a key of an axis of a definition, if there is such an axis.
theorem Normal.IsDefinition.isAxis_kind (h : IsDefinition done t) {kind : AxisKind} {axis : Tree}
    (haxis : (t.field? "axis").bind (Tree.field? kind.key) = some axis) : IsAxis done axis := by
  obtain ⟨declared, haxes, hshape⟩ := h.exists_axes
  rw [haxes] at haxis
  exact (hshape.kind_of_mem (Fields.mem_of_lookup haxis)).2

theorem Normal.IsAxis.texts_query (h : IsAxis done t) {queries : Tree} (hqueries : t.field? "query" = some queries) :
    Mapping (Values IsText) queries := by
  obtain ⟨parts, rfl, hclosed⟩ := Mapping.eq_map h
  exact hclosed.optional (by simp [Fields.keys]) (by simp) queries hqueries

theorem Normal.IsDefinition.texts_queries (h : IsDefinition done t) {kind : AxisKind}
    {queries : List (String × Tree)} (hqueries : t.queries? kind = some queries) : Values IsText queries := by
  obtain ⟨found, hfound, hfields⟩ := Option.bind_eq_some_iff.mp hqueries
  obtain ⟨axis, haxis, hquery⟩ := Option.bind_eq_some_iff.mp hfound
  obtain ⟨texts, rfl, htexts⟩ := Mapping.eq_map ((h.isAxis_kind haxis).texts_query hquery)
  obtain rfl : texts = queries := Option.some.inj hfields
  exact htexts

-- There are mappings only on the way to the queries of a kind.
theorem Normal.IsDefinition.follow?_query (h : IsDefinition done t) (kind : AxisKind) (path : List String) :
    t.follow? ("axis" :: kind.key :: "query" :: path) =
      (t.queries? kind).bind fun queries => (Tree.map queries).follow? path := by
  obtain ⟨declared, haxes, hshape⟩ := h.exists_axes
  obtain ⟨fields, rfl, -⟩ := Mapping.eq_map h
  have hbody : fields.lookup "axis" = some (.map declared) := haxes
  simp only [Tree.follow?, Tree.child?, Tree.queries?, Tree.field?, hbody, Option.bind_some]
  cases hfound : declared.lookup kind.key with
  | none => rfl
  | some axis =>
      have haxis := (hshape.kind_of_mem (Fields.mem_of_lookup hfound)).2
      obtain ⟨parts, rfl, -⟩ := Mapping.eq_map haxis
      simp only [Option.bind_some, Tree.field?]
      cases hquery : parts.lookup "query" with
      | none => rfl
      | some queries =>
          obtain ⟨texts, rfl, -⟩ := Mapping.eq_map (haxis.texts_query hquery)
          rfl

end

namespace Version
variable {v : Version} {base : Option String} {fs : Files} {defined effective : Contract}

-- A text that stands at a key among the queries of a kind.
def Declares (v : Version) (kind : AxisKind) (key text : String) : Prop :=
  ∃ queries, v.body.queries? kind = some queries ∧ queries.lookup key = some (.string text)

theorem query_eq_ok_iff {done : List Pass} (h : IsDefinition done v.body) {kind : AxisKind} {type text : String} :
    v.query kind type = .ok text ↔ ∃ key, Tree.segments type = [key] ∧ v.Declares kind key text := by
  have hquery : v.query kind type = .ok text ↔
      (v.body.at? ("/axis/" ++ kind.key ++ "/query/" ++ type)).bind Tree.text? = some text := by
    rw [query]
    generalize (v.body.at? ("/axis/" ++ kind.key ++ "/query/" ++ type)).bind Tree.text? = found
    cases found <;> simp
  rw [hquery, Tree.at?, Tree.segments_query, h.follow?_query]
  simp only [Declares]
  cases hqueries : v.body.queries? kind with
  | none => simp
  | some queries => simp [Tree.text?_follow?_texts (h.texts_queries hqueries)]

-- What is not found is told with the name, the kind and the text that was asked for.
theorem query_of_forall_ne {kind : AxisKind} {type : String} (h : ∀ text, v.query kind type ≠ .ok text) :
    v.query kind type = .error (.queryNotFound (v.name ++ ":" ++ kind.display ++ ":" ++ type)) := by
  rw [query] at h ⊢
  split at h
  next text _ => exact (h text rfl).elim
  next => rfl

-- A text that is asked for is taken as a path, and finds what stands at the key that is left of it without its
-- slashes. A text without a slash is a key itself, unless it is empty.
theorem query_finds_declared
    (hload : Pipeline.loadContracts (.below base) fs ["defined", "effective"] =
      .ok [("defined", defined), ("effective", effective)])
    (hmeets : effective.Meets "#/definitions/dataDef" v.body) (kind : AxisKind) (type : String) :
    (type ≠ "" ∧ '/' ∉ type.toList → ∀ text, v.query kind type = .ok text ↔ v.Declares kind type text) ∧
    (∀ text, v.query kind type = .ok text ↔ ∃ key, Tree.segments type = [key] ∧ v.Declares kind key text) ∧
    ((∀ text, v.query kind type ≠ .ok text) →
      v.query kind type = .error (.queryNotFound (v.name ++ ":" ++ kind.display ++ ":" ++ type))) := by
  obtain ⟨-, rfl⟩ := Pipeline.eq_of_loadContracts hload
  have h := (Schema.Packaged.meets_dataDef_iff .effective _ _).mp hmeets
  refine ⟨fun ⟨hne, hslash⟩ text => ?_, fun text => query_eq_ok_iff h, query_of_forall_ne⟩
  simp [query_eq_ok_iff h, Tree.segments_of_notMem hslash hne]

/-! ### A definition with queries -/

-- One of the keys has a slash in it, and another one is empty.
def queried : Version :=
  .ofBody "price" ⟨4, 0⟩ ⟨9, 0⟩ (.map [("axis", .map [("fact", .map [("query", .map [
    ("page", .string "prices"), ("table/row", .string "tr"), ("", .string "all")])])])])

theorem meets_queried :
    (Schema.Packaged.contract .effective "effective").Meets "#/definitions/dataDef" queried.body := by
  rw [Schema.Packaged.meets_dataDef_iff]
  simp [queried, ofBody, IsDefinition, IsAxes, IsAxis, Mapping, Closed, Optional, Values, Fields.keys,
    List.lookup_cons, IsText]

theorem query_finds_declared_page :
    ∃ defined effective,
      Pipeline.loadContracts (.below none) .empty ["defined", "effective"] =
        .ok [("defined", defined), ("effective", effective)] ∧
      effective.Meets "#/definitions/dataDef" queried.body ∧
      (∀ text, queried.query .fact "page" = .ok text ↔ queried.Declares .fact "page" text) ∧
      queried.query .fact "page" = .ok "prices" ∧
      queried.query .row "page" = .error (.queryNotFound "price:ROW:page") := by
  have hload := Pipeline.loadContracts_packaged none .empty
  obtain ⟨hplain, -⟩ := query_finds_declared hload meets_queried .fact "page"
  obtain ⟨hrow, -, hmissing⟩ := query_finds_declared hload meets_queried .row "page"
  have hpage := hplain (by decide)
  refine ⟨_, _, hload, meets_queried, hpage, (hpage _).mpr ⟨_, rfl, rfl⟩, hmissing fun text hfound => ?_⟩
  obtain ⟨queries, hqueries, -⟩ := (hrow (by decide) text).mp hfound
  cases hqueries

-- The key with a slash and the empty key are declared and not found; what is found at /page is not declared.
theorem query_misses_declared :
    ∃ defined effective,
      Pipeline.loadContracts (.below none) .empty ["defined", "effective"] =
        .ok [("defined", defined), ("effective", effective)] ∧
      effective.Meets "#/definitions/dataDef" queried.body ∧
      queried.Declares .fact "table/row" "tr" ∧
      queried.query .fact "table/row" = .error (.queryNotFound "price:FACT:table/row") ∧
      queried.Declares .fact "" "all" ∧ queried.query .fact "" = .error (.queryNotFound "price:FACT:") ∧
      (∀ text, ¬queried.Declares .fact "/page" text) ∧ queried.query .fact "/page" = .ok "prices" := by
  have hload := Pipeline.loadContracts_packaged none .empty
  refine ⟨_, _, hload, meets_queried, ⟨_, rfl, rfl⟩, ?_, ⟨_, rfl, rfl⟩, ?_, ?_, ?_⟩
  · decide +kernel
  · decide +kernel
  · rintro text ⟨queries, hqueries, hfound⟩
    cases hqueries
    cases hfound
  · decide +kernel

end Version
end ScraperTimeline
