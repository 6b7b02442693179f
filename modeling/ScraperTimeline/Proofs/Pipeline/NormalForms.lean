import ScraperTimeline.Proofs.Normal.NormalForm
import ScraperTimeline.Proofs.Pipeline.Contracts

/-!
The effective contract describes normal forms: what it accepts the defined contract accepts as well, and
normalization gives it back as it is.
-/
namespace ScraperTimeline.Pipeline
open ScraperTimeline.Normal Schema.Packaged

theorem validate_defined_of_effective {t : Tree} {defined effective : String} {policy : Policy}
    (h : (contract .effective effective).validate policy t = .ok ()) (other : Policy) :
    (contract .defined defined).validate other t = .ok () := by
  rw [validate_contract_iff] at h ⊢
  exact h.mono (List.nil_subset _)

theorem normalize_of_effective {t : Tree} {effective : String} {policy : Policy} (hkeyed : t.keyed)
    (h : (contract .effective effective).validate policy t = .ok ()) (defaultGroup : String) :
    normalize defaultGroup t = .ok t := by
  rw [validate_contract_iff] at h
  exact normalize_of_done (h.nothing_left hkeyed) defaultGroup

-- The default group need not be there, as no task is left without steps.
theorem effective_normal_form :
    ∃ defined effective : Contract,
      (∀ base fs, loadContracts (.below base) fs ["defined", "effective"] =
        .ok [("defined", defined), ("effective", effective)]) ∧
      ∀ (t : Tree) (policy : Policy), t.keyed → effective.validate policy t = .ok () →
        (∀ other, defined.validate other t = .ok ()) ∧
          ∀ defaultGroup, normalize defaultGroup t = .ok t :=
  ⟨contract .defined "defined", contract .effective "effective", loadContracts_packaged,
    fun _ _ hkeyed h => ⟨validate_defined_of_effective h, normalize_of_effective hkeyed h⟩⟩

-- The normal form of the tree of prices.
def normalPrices : Tree :=
  .map [
    ("dataDefs", .map [("price", .map [("axis", .map [
      ("row", .map [("members", .seq [.map [
        ("name", .string "open"), ("match", .string "o.*"), ("index", .int 0), ("order", .int 0)]])]),
      ("fact", .map [("members", .seq [.map [
        ("name", .string "fact"), ("value", .string "fact"), ("index", .int 0), ("order", .int 0)]])])])])]),
    ("steps", .map [
      ("load", .seq [.map [("name", .string "load"), ("class", .string "Loader")]]),
      ("all", .seq [.map [("name", .string "load"), ("class", .string "Loader")]])]),
    ("taskGroups", .map [("daily", .map [("prices", .map [
      ("dataDef", .string "price"),
      ("steps", .seq [.map [("name", .string "load"), ("class", .string "Loader")]])])])])]

theorem effective_normal_form_prices :
    ∃ defined effective : Contract,
      loadContracts (.below none) .empty ["defined", "effective"] =
        .ok [("defined", defined), ("effective", effective)] ∧
      effective.validate .collectAll normalPrices = .ok () ∧
      defined.validate .failFast normalPrices = .ok () ∧
      normalize "none" normalPrices = .ok normalPrices := by
  obtain ⟨defined, effective, hload, hnormal⟩ := effective_normal_form
  obtain ⟨-, heffective⟩ := eq_of_loadContracts (hload none .empty)
  have hkeyed : normalPrices.keyed := by decide
  have hvalid : effective.validate .collectAll normalPrices = .ok () := by
    rw [heffective]
    exact validate_normalize (by decide) validate_prices (show normalize "all" prices = _ from rfl)
  obtain ⟨hdefined, hfixed⟩ := hnormal normalPrices .collectAll hkeyed hvalid
  exact ⟨defined, effective, hload none .empty, hvalid, hdefined .failFast, hfixed "none"⟩

end ScraperTimeline.Pipeline
