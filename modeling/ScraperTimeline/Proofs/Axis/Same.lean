import ScraperTimeline.Proofs.Axis.Queries
import ScraperTimeline.Proofs.Tree.Same

/-!
Versions of equal definitions. Their queries are the same, and so are their axes, as long as a zero has the
same sign in both: as numbers the zeros are equal, their texts are not.
-/
namespace ScraperTimeline

open ScraperTimeline.Normal Shape

namespace Binary64

end Binary64

namespace Tree
variable {a b : Tree}

-- The texts of the zeros.
def zeroTexts : List (Option String) := [some "0", some "-0"]

end Tree

section
variable {done : List Pass} {t m m' : Tree}

-- The same axis, but for the sign of a zero.
structure Axis.Alike (a b : Axis) : Prop where
  rest : { a with value := b.value } = b
  value : a.value = b.value ∨ (a.value ∈ Tree.zeroTexts ∧ b.value ∈ Tree.zeroTexts)

-- The same kinds, and for each axis one of the same kind that is like it.
structure AxisSets.Alike (sets others : AxisSets) : Prop where
  kinds : sets.map (·.1) = others.map (·.1)
  forth : ∀ set ∈ sets, ∀ a ∈ set.2, ∃ other ∈ others, other.1 = set.1 ∧ ∃ b ∈ other.2, a.Alike b
  back : ∀ other ∈ others, ∀ b ∈ other.2, ∃ set ∈ sets, set.1 = other.1 ∧ ∃ a ∈ set.2, a.Alike b

end

namespace Version
variable {done : List Pass} {a b : Version} {base : Option String} {fs : Files} {defined effective : Contract}

end Version
end ScraperTimeline
