/-!
# Text

The few shapes that all printed texts share: lists with commas, brackets and braces, and the ruled
heading above a table.
-/

namespace ExistentialRules.Text

/-- The texts one after the other, a comma and a blank between two of them. -/
def commas (texts : List String) : String :=
  String.intercalate ", " texts

/-- A comma list in square brackets. -/
def bracketed (texts : List String) : String :=
  "[" ++ commas texts ++ "]"

/-- A list of numbers in square brackets. -/
def numbers (ns : List Nat) : String :=
  bracketed (ns.map toString)

/-- A text in curly braces. -/
def braced (text : String) : String :=
  "\x7b" ++ text ++ "\x7d"

/-- Texts in ascending order, equal ones kept. -/
def sorted (texts : List String) : List String :=
  texts.mergeSort fun a b => compare a b ≠ .gt

/-- Each of the sorted texts is at most the next. -/
theorem pairwise_sorted (texts : List String) :
    (sorted texts).Pairwise fun a b => compare a b ≠ .gt := by
  have htrans : ∀ a b c : String, decide (compare a b ≠ .gt) = true →
      decide (compare b c ≠ .gt) = true → decide (compare a c ≠ .gt) = true := by
    intro a b c
    simp only [ne_eq, Ordering.ne_gt_iff_isLE, decide_eq_true_eq]
    exact Std.TransCmp.isLE_trans
  have htotal : ∀ a b : String,
      (decide (compare a b ≠ .gt) || decide (compare b a ≠ .gt)) = true := by
    intro a b
    have hswap : compare b a = (compare a b).swap := Std.OrientedCmp.eq_swap
    rw [hswap]
    cases compare a b <;> rfl
  simpa only [sorted, decide_eq_true_eq] using List.pairwise_mergeSort htrans htotal texts

/-- Sorting forgets the order. -/
theorem sorted_eq_of_perm {xs ys : List String} (h : xs.Perm ys) : sorted xs = sorted ys := by
  refine List.Perm.eq_of_pairwise (fun a b _ _ hab hba => ?_) (pairwise_sorted xs)
    (pairwise_sorted ys) ?_
  · rw [ne_eq, Ordering.ne_gt_iff_isLE] at hab hba
    exact Std.LawfulEqOrd.eq_of_compare (Std.OrientedCmp.isLE_antisymm hab hba)
  · exact (List.mergeSort_perm xs _).trans (h.trans (List.mergeSort_perm ys _).symm)

/-- A line: the text and the end of the line. -/
def line (text : String) : String :=
  text ++ "\n"

/-- All texts joined with nothing between them. -/
def concat (texts : List String) : String :=
  String.join texts

/-- A table: an empty line, its title, a rule of 45 dashes and the rows. -/
def table (title : String) (rows : List String) : String :=
  line "" ++ line (title ++ ":") ++ line (String.ofList (List.replicate 45 '-')) ++ concat rows

end ExistentialRules.Text
