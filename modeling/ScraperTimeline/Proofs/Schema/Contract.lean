import ScraperTimeline.Proofs.Schema.Admits
import ScraperTimeline.Schema.Contract

namespace ScraperTimeline.Contract

-- What a reference demands where so many references are followed in a row and no more.
def Demands (c : Contract) : Nat → String → Tree → Prop
  | 0, _, _ => True
  | n + 1, target, t => ∀ s, c.definitions.lookup target = some s → s.Admits (c.Demands n) t

variable {c : Contract}

theorem demands_of_lookup {target : String} {s : Schema} (h : c.definitions.lookup target = some s)
    (n : Nat) : c.Demands (n + 1) target = s.Admits (c.Demands n) := by
  funext t
  rw [Demands, h]
  simp

theorem follow_eq_nil_iff (n : Nat) (target path : String) (t : Tree) :
    c.follow n target path t.plain = [] ↔ c.Demands n target t := by
  induction n generalizing target path t with
  | zero => simp [follow, Demands]
  | succ n ih =>
      rw [follow, Demands]
      cases c.definitions.lookup target with
      | none => simp
      | some s =>
          simp only [Option.some.injEq, forall_eq']
          exact Schema.check_eq_nil_iff ih s path t

-- Whether there is nothing against a tree at a reference.
def Meets (c : Contract) (target : String) (t : Tree) : Prop :=
  c.follow (c.followBound t.plain) target "" t.plain = []

theorem validate_eq_ok_iff {policy : Policy} {t : Tree} :
    c.validate policy t = .ok () ↔ c.schema.Admits (c.Demands (c.followBound t.plain)) t := by
  rw [← Schema.check_eq_nil_iff (follow_eq_nil_iff _) c.schema ""]
  unfold validate violations
  split <;> simp_all

theorem length_definitions_lt_followBound (t : Tree) : c.definitions.length < c.followBound t :=
  Nat.le_mul_of_pos_left _ (Nat.succ_pos _)

end ScraperTimeline.Contract
