import ScraperTimeline.Proofs.Normal.Returned
import ScraperTimeline.Proofs.Tree.Within

/-!
Expansion of what is expanded. A list of entries without texts stands for itself.
-/
namespace ScraperTimeline.Normal
open Shape

def Textless (items : List Tree) : Prop := ∀ t ∈ items, ¬IsText t

section
variable {groups : Groups} {entries : List Tree} {name : String}

theorem inlinedUnder_of_textless (h : Textless entries) (open_ : List String) :
    inlinedUnder groups open_ entries = .ok entries := by
  induction entries with
  | nil => exact inlinedUnder_nil groups open_
  | cons entry rest ih =>
      obtain ⟨hentry, hrest⟩ := List.forall_mem_cons.mp h
      rw [inlinedUnder_step hentry, ih hrest]
      rfl

theorem inlined_of_textless (h : Textless entries) : inlined groups entries = .ok entries := by
  rw [inlined_eq, inlinedUnder_of_textless h]

theorem inlinedGroup_of_textless (hgroup : groups.lookup name = some (.seq entries)) (h : Textless entries) :
    inlinedGroup groups name = .ok entries := by
  rw [inlinedGroup_eq, inlinedGroupUnder_of_entries List.not_mem_nil (entries?_eq_ok_iff.mpr hgroup),
    inlinedUnder_of_textless h]

theorem inlinedOne_of_textless (hgroup : groups.lookup name = some (.seq entries)) (h : Textless entries) :
    inlinedOne groups name (.seq entries) = .ok (.seq entries) := by
  rw [inlinedOne, inlinedGroup_of_textless hgroup h]
  rfl

end

/-! ### Changes of nothing -/

theorem mapM_eq_self {α : Type} {f : α → Except Fault α} {as : List α} (h : ∀ a ∈ as, f a = .ok a) :
    as.mapM f = .ok as := by
  induction as with
  | nil => rfl
  | cons a as ih =>
      obtain ⟨ha, has⟩ := List.forall_mem_cons.mp h
      rw [List.mapM_cons, ha, ih has]
      rfl

theorem mapValues_eq_self {f : String → Tree → Except Fault Tree} {fields : List (String × Tree)}
    (h : ∀ field ∈ fields, f field.1 field.2 = .ok field.2) : mapValues f fields = .ok fields :=
  mapM_eq_self fun field hfield => by rw [h field hfield]; rfl

section
variable {R : Tree → Prop} {t : Tree}

theorem onFields_eq_self {f : List (String × Tree) → Except Fault (List (String × Tree))}
    (h : IfMapping (fun fields => f fields = .ok fields) t) : onFields f t = .ok t := by
  cases t with
  | map fields =>
      rw [onFields, show f fields = .ok fields from h]
      rfl
  | _ => rfl

theorem modifyM_eq_self {key : String} {f : Tree → Except Fault Tree} (h : IfMapping (At key R) t)
    (hf : ∀ v, R v → f v = .ok v) : t.modifyM key f = .ok t := by
  rw [modifyM_eq]
  refine onFields_eq_self (h.mono fun fields hat => mapValues_eq_self ?_)
  rintro ⟨k, v⟩ hfield
  by_cases hkey : k = key
  · subst hkey
    rw [if_pos rfl, hf v (hat v hfield)]
  · rw [if_neg hkey]
    rfl

theorem modifyAllM_eq_self {f : Tree → Except Fault Tree} (h : IfMapping (Values R) t)
    (hf : ∀ v, R v → f v = .ok v) : t.modifyAllM f = .ok t := by
  rw [modifyAllM_eq]
  refine onFields_eq_self (h.mono fun fields hvalues => mapValues_eq_self fun field hfield => ?_)
  exact hf _ (hvalues field hfield)

end
end ScraperTimeline.Normal
