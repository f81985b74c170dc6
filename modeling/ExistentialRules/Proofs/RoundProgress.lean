import Mathlib.Data.Nat.Find
import ExistentialRules.Proofs.StrataPartition

/-!
# The rounds make progress

The components are taken in rounds for as long as any are left. What is left in the course of the
rounds is always a part of the components, so the dependencies between what is left contain no
circle, and some component depends on no other. It is taken in this round. So there are never more
rounds than components, and the bound on the number of rounds cuts nothing off.

## Main definitions

* `DependencyGraph.pendingAfter`: the components that are left after some rounds;
* `DependencyGraph.roundAfter`: the strata of the round that follows.

## Main statements

* `DependencyGraph.exists_ready_pendingAfter`, `DependencyGraph.length_pendingAfter_succ_lt`: what
  one round does;
* `DependencyGraph.length_pendingAfter_add_le`: what the rounds up to some point have taken;
* `DependencyGraph.rounds_pendingAfter`: the strata, round by round;
* `DependencyGraph.rounds_progress`: the rounds come to an end.
-/

namespace ExistentialRules

namespace DependencyGraph

/-! ## §1 What is left -/

/-- The components that are left after so many rounds. -/
def pendingAfter (g : DependencyGraph) : Nat → List Stratum
  | 0 => g.stronglyConnected.map g.componentStratum
  | k + 1 => (g.pendingAfter k).filter fun s => !g.isReady (g.pendingAfter k) s

/-- The strata of the round that comes after so many others. -/
def roundAfter (g : DependencyGraph) (k : Nat) : List Stratum :=
  round ((g.pendingAfter k).filter (g.isReady (g.pendingAfter k)))

variable {g : DependencyGraph}

theorem length_pendingAfter_zero (g : DependencyGraph) :
    (g.pendingAfter 0).length = g.stronglyConnected.length :=
  List.length_map _

/-- Once nothing is left, nothing comes back. -/
theorem pendingAfter_eq_nil_of_le {k m : Nat} (hk : g.pendingAfter k = []) (hkm : k ≤ m) :
    g.pendingAfter m = [] := by
  induction hkm with
  | refl => exact hk
  | step _ ih => simp [pendingAfter, ih]

/-- The strata, round by round. -/
theorem rounds_pendingAfter (g : DependencyGraph) (m k : Nat) :
    g.rounds m (g.pendingAfter k) = (List.range' k m).flatMap g.roundAfter := by
  -- By induction on the number of rounds, wherever they begin.
  induction m generalizing k with
  | zero => rfl
  | succ m ih =>
    rw [List.range'_succ, List.flatMap_cons, ← ih]
    rfl

/-- A round in which nothing is left has no strata. -/
theorem roundAfter_eq_nil {k : Nat} (hk : g.pendingAfter k = []) : g.roundAfter k = [] := by
  rw [roundAfter, hk]
  rfl

/-! ## §2 One round -/

section Rounds

variable (hg : g.Bounded)

include hg

theorem isComponent_of_mem_pendingAfter {k : Nat} {s : Stratum} (hs : s ∈ g.pendingAfter k) :
    g.IsComponent s.rules := by
  induction k with
  | zero => exact isComponent_of_mem_components hg hs
  | succ k ih => exact ih (List.mem_of_mem_filter hs)

/-- As long as components are left, one of them depends on no rule that is left outside it. -/
theorem exists_ready_pendingAfter {k : Nat} (hk : g.pendingAfter k ≠ []) :
    ∃ s ∈ g.pendingAfter k, g.isReady (g.pendingAfter k) s = true :=
  exists_isReady (fun _ hs => isComponent_of_mem_pendingAfter hg hs) hk

/-- A round leaves fewer components than it finds. -/
theorem length_pendingAfter_succ_lt {k : Nat} (hk : g.pendingAfter k ≠ []) :
    (g.pendingAfter (k + 1)).length < (g.pendingAfter k).length := by
  obtain ⟨s, hs, hready⟩ := exists_ready_pendingAfter hg hk
  exact List.length_filter_lt_length_iff_exists.2 ⟨s, hs, by simp [hready]⟩

/-! ## §3 All rounds -/

/-- As long as components are left, each of the rounds before has taken one. -/
theorem length_pendingAfter_add_le {k : Nat} (hk : g.pendingAfter k ≠ []) :
    (g.pendingAfter k).length + k ≤ g.stronglyConnected.length := by
  -- By induction on the rounds: if something is left now, then something was left before.
  induction k with
  | zero => exact (length_pendingAfter_zero g).le
  | succ k ih =>
    have hbefore : g.pendingAfter k ≠ [] :=
      fun hnil => hk (pendingAfter_eq_nil_of_le hnil (Nat.le_succ k))
    have hless := length_pendingAfter_succ_lt hg hbefore
    have hsofar := ih hbefore
    omega

/-- After as many rounds as there are components, nothing is left. -/
theorem pendingAfter_length_stronglyConnected :
    g.pendingAfter g.stronglyConnected.length = [] := by
  by_contra hleft
  have hbound := length_pendingAfter_add_le hg hleft
  have hpositive := List.length_pos_iff.2 hleft
  omega

/-- There is a number of rounds after which nothing is left for the first time. -/
theorem exists_roundCount :
    ∃ n ≤ g.stronglyConnected.length, ∀ k, g.pendingAfter k = [] ↔ n ≤ k := by
  have hends : ∃ k, g.pendingAfter k = [] := ⟨_, pendingAfter_length_stronglyConnected hg⟩
  refine ⟨Nat.find hends, Nat.find_min' hends (pendingAfter_length_stronglyConnected hg), ?_⟩
  intro k
  exact ⟨Nat.find_min' hends, pendingAfter_eq_nil_of_le (Nat.find_spec hends)⟩

end Rounds

/-- Rounds in which nothing is left can be left out. -/
theorem rounds_eq_flatMap_roundAfter {n m : Nat} (hn : g.pendingAfter n = []) (hnm : n ≤ m) :
    g.rounds m (g.pendingAfter 0) = (List.range n).flatMap g.roundAfter := by
  obtain ⟨extra, rfl⟩ := Nat.exists_eq_add_of_le hnm
  -- The rounds after the last one that finds something add nothing.
  have hlater : (List.range' n extra).flatMap g.roundAfter = [] := by
    rw [List.flatMap_eq_nil_iff]
    intro k hk
    have hle : n ≤ k := (List.mem_range'_1.1 hk).1
    exact roundAfter_eq_nil (pendingAfter_eq_nil_of_le hn hle)
  rw [rounds_pendingAfter, ← List.range'_append_1, List.flatMap_append, Nat.zero_add, hlater,
    List.append_nil, List.range_eq_range']

/-- In every round in which components are left, one of them depends on no rule that is left outside
it, and fewer components are left after the round. The rounds end after some number of them, which
is not larger than the number of components, and nothing is left then and later. The strata are
those of these rounds, and every larger bound on the number of rounds gives the same strata. -/
theorem rounds_progress (hg : g.Bounded) :
    (∀ k, g.pendingAfter k ≠ [] →
      (∃ s ∈ g.pendingAfter k, ∀ i ∈ s.rules, ∀ d ∈ g.dependenciesOf i,
        (∃ t ∈ g.pendingAfter k, d ∈ t.rules) → d ∈ s.rules) ∧
      (g.pendingAfter (k + 1)).length < (g.pendingAfter k).length) ∧
    ∃ n ≤ g.stronglyConnected.length,
      (∀ k, g.pendingAfter k = [] ↔ n ≤ k) ∧
      g.strata = (List.range n).flatMap g.roundAfter ∧
      ∀ m, n ≤ m → g.rounds m (g.stronglyConnected.map g.componentStratum) = g.strata := by
  refine ⟨fun k hk => ⟨?_, length_pendingAfter_succ_lt hg hk⟩, ?_⟩
  · obtain ⟨s, hs, hready⟩ := exists_ready_pendingAfter hg hk
    refine ⟨s, hs, fun i hi d hd hleft => ?_⟩
    obtain ⟨t, ht, hdt⟩ := hleft
    exact isReady_iff.1 hready i hi d hd t ht hdt
  · obtain ⟨n, hn, hends⟩ := exists_roundCount hg
    have hnil : g.pendingAfter n = [] := (hends n).2 le_rfl
    -- As many rounds as there are components are enough.
    have hstrata : g.strata = (List.range n).flatMap g.roundAfter := by
      apply rounds_eq_flatMap_roundAfter hnil
      rwa [List.length_map]
    refine ⟨n, hn, hends, hstrata, fun m hnm => ?_⟩
    rw [hstrata]
    exact rounds_eq_flatMap_roundAfter hnil hnm

/-- A rule that depends on a circle, which depends on a rule that depends on itself, and a rule that
is alone. -/
def circleInChain : DependencyGraph :=
  ⟨[[1], [2, 3], [1], [3], []]⟩

theorem rounds_progress_circleInChain :
    circleInChain.Bounded ∧
    circleInChain.stronglyConnected = [[4], [0], [1, 2], [3]] ∧
    circleInChain.pendingAfter 1 = [⟨[0], false⟩, ⟨[1, 2], true⟩] ∧
    (circleInChain.pendingAfter 2).length < 2 ∧
    ∃ n ≤ 4, (∀ k, circleInChain.pendingAfter k = [] ↔ n ≤ k) ∧
      circleInChain.strata = (List.range n).flatMap circleInChain.roundAfter := by
  have hbounded : circleInChain.Bounded := by decide
  have hleft : circleInChain.pendingAfter 1 = [⟨[0], false⟩, ⟨[1, 2], true⟩] := by decide
  obtain ⟨hprogress, n, hn, hends, hstrata, -⟩ := rounds_progress hbounded
  have hless := (hprogress 1 (by simp [hleft])).2
  rw [hleft] at hless
  exact ⟨hbounded, by decide, hleft, hless, n, hn, hends, hstrata⟩

/-- As many rounds as components may be needed. -/
example : (⟨[[1], [2], []]⟩ : DependencyGraph).pendingAfter 2 = [⟨[0], false⟩] := by decide

end DependencyGraph

end ExistentialRules
