import Mathlib.Data.Set.Finite.Basic

/-!
Finite maps, given as functions into an option type: only finitely many keys have a value.
-/

namespace Audhsos.Lib

variable {K V W : Type} {find : K → Option V}

/-- Only finitely many keys have a value. -/
def FinitelyMany (find : K → Option V) : Prop := {k | find k ≠ none}.Finite

theorem finitelyMany_of_subset {s : Finset K} (hs : ∀ k, find k ≠ none → k ∈ s) :
    FinitelyMany find :=
  s.finite_toSet.subset fun k hk => hs k hk

theorem FinitelyMany.map (h : FinitelyMany find) (g : V → W) :
    FinitelyMany fun k => (find k).map g :=
  h.subset fun k hk hnone => hk (by simp [hnone])

section Update

variable [DecidableEq K]

theorem FinitelyMany.update (h : FinitelyMany find) (k : K) (v : Option V) :
    FinitelyMany (Function.update find k v) := by
  refine (h.insert k).subset fun k' hk' => ?_
  by_cases hk : k' = k
  · exact Set.mem_insert_iff.mpr (Or.inl hk)
  · exact Set.mem_insert_of_mem _ (by simpa [hk] using hk')

end Update

end Audhsos.Lib
