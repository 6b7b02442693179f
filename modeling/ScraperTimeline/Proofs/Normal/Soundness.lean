import ScraperTimeline.Proofs.Normal.Steps

/-!
The passes in a row: each gives its part to the shape of a tree and takes nothing from the passes before.
-/
namespace ScraperTimeline.Normal

section
variable {done rest : List Pass} {pass : Pass} {defaultGroup : String} {t t' : Tree}

-- What each pass carries over to itself holds after all of them.
theorem normalize_induct {I : List Pass → Tree → Prop}
    (hstep : ∀ (done : List Pass) (pass : Pass) (rest : List Pass) (t t' : Tree), I done t →
      done ++ pass :: rest = Pass.order → pass.run defaultGroup t = .ok t' → I (done ++ [pass]) t')
    (h : I [] t) (hrun : normalize defaultGroup t = .ok t') : I Pass.order t' := by
  have hfold : ∀ (rest done : List Pass) (t : Tree), done ++ rest = Pass.order → I done t →
      rest.foldlM (fun defs pass => pass.run defaultGroup defs) t = .ok t' → I Pass.order t' := by
    intro rest
    induction rest with
    | nil =>
        intro done t horder hdone hrun
        obtain rfl := Except.ok.inj hrun
        rwa [← horder, List.append_nil]
    | cons pass rest ih =>
        intro done t horder hdone hrun
        rw [List.foldlM_cons] at hrun
        cases hpass : pass.run defaultGroup t with
        | ok between =>
            rw [hpass] at hrun
            refine ih (done ++ [pass]) between ?_ (hstep done pass rest t between hdone horder hpass) hrun
            rw [List.append_assoc, List.singleton_append, horder]
        | error e =>
            rw [hpass] at hrun
            cases hrun
  exact hfold Pass.order [] t rfl h hrun

-- A tree on which some passes are done, and on which the positions can still be given.
structure Normalizing (done : List Pass) (t : Tree) : Prop where
  shape : IsDefs done t
  indexable : .addIndex ∉ done → t.indexable

theorem done_eq_takeWhile (horder : done ++ pass :: rest = Pass.order) :
    done = Pass.order.takeWhile (· ≠ pass) := by
  have hnew : pass ∉ done := by
    have hnodup : (done ++ pass :: rest).Nodup := horder ▸ by decide
    exact fun hmem => List.disjoint_of_nodup_append hnodup hmem List.mem_cons_self
  rw [← horder, List.takeWhile_append_of_pos]
  · simp
  · intro p hp
    have hne : p ≠ pass := by
      rintro rfl
      exact hnew hp
    simpa using hne

-- Each pass does its part on a tree on which the passes before it are done.
theorem Normalizing.step (h : Normalizing done t) (horder : done ++ pass :: rest = Pass.order)
    (hrun : pass.run defaultGroup t = .ok t') : Normalizing (done ++ [pass]) t' := by
  have hdone := done_eq_takeWhile horder
  cases pass with
  | addFactAxis =>
      obtain rfl : done = [] := hdone
      obtain rfl := Except.ok.inj hrun
      refine ⟨h.shape.addFactAxis (by simp) (by simp), fun _ => ?_⟩
      exact indexable_addFactAxis (h.indexable (by simp))
  | addIndex =>
      obtain rfl : done = [.addFactAxis] := hdone
      obtain rfl := Except.ok.inj hrun
      exact ⟨h.shape.addIndex (h.indexable (by simp)), by simp⟩
  | addOrder =>
      obtain rfl : done = [.addFactAxis, .addIndex] := hdone
      obtain rfl := Except.ok.inj hrun
      exact ⟨h.shape.addOrder, by simp⟩
  | expandSteps =>
      obtain rfl : done = [.addFactAxis, .addIndex, .addOrder] := hdone
      exact ⟨h.shape.expandSteps hrun, by simp⟩
  | setDefaultSteps =>
      obtain rfl : done = [.addFactAxis, .addIndex, .addOrder, .expandSteps] := hdone
      obtain rfl := Except.ok.inj hrun
      exact ⟨h.shape.setDefaultSteps (by simp) defaultGroup, by simp⟩
  | expandTaskSteps =>
      obtain rfl : done = [.addFactAxis, .addIndex, .addOrder, .expandSteps, .setDefaultSteps] := hdone
      exact ⟨h.shape.expandTaskSteps hrun, by simp⟩

theorem IsDefs.normalize (h : IsDefs [] t) (hindex : t.indexable)
    (hrun : normalize defaultGroup t = .ok t') : IsDefs Pass.order t' :=
  (normalize_induct (fun _ _ _ _ _ => Normalizing.step) ⟨h, fun _ => hindex⟩ hrun).shape

end

end ScraperTimeline.Normal
