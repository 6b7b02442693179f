import ScraperTimeline.Proofs.Tree.Shape

/-!
What is read at a key after a change is the change of what was there, and two changes at one place are one.
-/
namespace ScraperTimeline.Tree
open Shape

@[simp] theorem field?_modify (key : String) (f : Tree → Tree) (t : Tree) :
    (t.modify key f).field? key = (t.field? key).map f := by
  cases t with
  | map fields => exact (related_modify key f fields).lookup_eq_map fun v v' h => by simpa using h.2
  | _ => rfl

@[simp] theorem field?_modifyAll (key : String) (f : Tree → Tree) (t : Tree) :
    (t.modifyAll f).field? key = (t.field? key).map f := by
  cases t with
  | map fields => exact (related_modifyAll f fields).lookup_eq_map fun v v' h => h.2
  | _ => rfl

@[simp] theorem fields?_modifyFields (f : List (String × Tree) → List (String × Tree)) (t : Tree) :
    (t.modifyFields f).fields? = t.fields?.map f := by
  cases t <;> rfl

/-! ### Changes after changes -/

section
variable {m : Type → Type} [Monad m] [LawfulMonad m]

theorem modify_modify (key : String) (f g : Tree → Tree) (t : Tree) :
    (t.modify key f).modify key g = t.modify key (g ∘ f) := by
  cases t with
  | map fields =>
      simp only [modify, List.map_map]
      congr 2
      funext field
      by_cases hkey : field.1 = key <;> simp [hkey]
  | _ => rfl

theorem modifyAll_modifyAll (f g : Tree → Tree) (t : Tree) :
    (t.modifyAll f).modifyAll g = t.modifyAll (g ∘ f) := by
  cases t <;> simp [modifyAll]

theorem modifyItems_modifyItems (f g : Nat → Tree → Tree) (t : Tree) :
    (t.modifyItems f).modifyItems g = t.modifyItems fun n => g n ∘ f n := by
  cases t <;> simp [modifyItems, List.mapIdx_mapIdx]

theorem modifyFields_modifyFields (f g : List (String × Tree) → List (String × Tree)) (t : Tree) :
    (t.modifyFields f).modifyFields g = t.modifyFields (g ∘ f) := by
  cases t <;> rfl

theorem modifyM_modify (key : String) (f : Tree → Tree) (g : Tree → m Tree) (t : Tree) :
    (t.modify key f).modifyM key g = t.modifyM key (g ∘ f) := by
  cases t with
  | map fields =>
      simp only [modify, modifyM, List.mapM_map]
      congr 2
      funext field
      by_cases hkey : field.1 = key <;> simp [hkey]
  | _ => rfl

theorem modifyAllM_modifyAll (f : Tree → Tree) (g : Tree → m Tree) (t : Tree) :
    (t.modifyAll f).modifyAllM g = t.modifyAllM (g ∘ f) := by
  cases t with
  | map fields =>
      simp only [modifyAll, modifyAllM, List.mapM_map]
      rfl
  | _ => rfl

end

end ScraperTimeline.Tree
