import ExistentialRules.Ascending
import ExistentialRules.Literal

/-!
# Substitutions

A substitution is a finite map from variables to terms. It is applied once: a term that is put in
place of a variable is not looked at again.

## Main statements

* `Substitution.lookup_bind_self`, `Substitution.lookup_bind_of_ne`,
  `Substitution.lookup_unbind_self`, `Substitution.lookup_unbind_of_ne`: what is bound after a
  change;
* `Substitution.unbind_bind`: taking back a binding of an unbound variable leaves no trace.
-/

namespace ExistentialRules

/-- A finite map from variables to terms, listed with its variables in ascending order. -/
structure Substitution where
  /-- The bound variables with their terms. -/
  bindings : List (Variable × Term)
deriving DecidableEq

namespace Substitution

/-! ## §1 Operations -/

/-- The substitution that binds nothing. -/
def empty : Substitution :=
  ⟨[]⟩

/-- The term bound to a variable, if there is one. -/
def lookup (θ : Substitution) (v : Variable) : Option Term :=
  θ.bindings.lookup v

/-- Bind a variable, in place of what it was bound to before. -/
def bind (θ : Substitution) (v : Variable) (t : Term) : Substitution :=
  ⟨Ascending.alter v (fun _ => t) θ.bindings⟩

/-- Take back the binding of a variable. -/
def unbind (θ : Substitution) (v : Variable) : Substitution :=
  ⟨Ascending.erase v θ.bindings⟩

/-- Take back the bindings of several variables. -/
def unbindAll (θ : Substitution) (vs : List Variable) : Substitution :=
  vs.foldl unbind θ

/-- The number of bound variables. -/
def size (θ : Substitution) : Nat :=
  θ.bindings.length

/-- Whether no variable is bound. -/
def isEmpty (θ : Substitution) : Bool :=
  θ.bindings.isEmpty

/-- What a variable is sent to: the term bound to it, or itself. -/
def applyVariable (θ : Substitution) (v : Variable) : Term :=
  (θ.lookup v).getD (.var v)

/-- Replace a bound variable by its term; other terms stay. -/
def applyTerm (θ : Substitution) : Term → Term :=
  Term.mapVariable θ.applyVariable

/-- Replace the bound variables of a literal. -/
def applyLiteral (θ : Substitution) : Literal → Literal :=
  Literal.mapTerms θ.applyTerm

/-- Replace the bound variables of several literals. -/
def applyLiterals (θ : Substitution) (ls : List Literal) : List Literal :=
  ls.map θ.applyLiteral

/-- The text `{?X -> a, ?Y -> b}`, the texts of the bindings in ascending order. -/
def render (θ : Substitution) : String :=
  let shown := θ.bindings.map fun (v, t) => v.render ++ " -> " ++ t.render
  Text.braced (Text.commas (Text.sorted shown))

/-! ## §2 Looking up after a change -/

@[simp]
theorem lookup_empty (v : Variable) : empty.lookup v = none :=
  rfl

@[simp]
theorem lookup_bind_self (θ : Substitution) (v : Variable) (t : Term) :
    (θ.bind v t).lookup v = some t := by
  obtain ⟨bindings⟩ := θ
  simp only [bind, lookup]
  induction bindings with
  | nil => simp [Ascending.alter]
  | cons entry rest ih =>
    simp only [Ascending.alter]
    split
    · simp
    · rename_i heq
      have hv : v = entry.1 := Std.LawfulEqOrd.eq_of_compare heq
      simp [hv]
    · rename_i hgt
      have hne : (v == entry.1) = false := by
        simp only [beq_eq_false_iff_ne, ne_eq]
        intro heq
        rw [heq] at hgt
        simp at hgt
      simpa only [List.lookup_cons, hne] using ih

theorem lookup_bind_of_ne (θ : Substitution) {v w : Variable} (h : w ≠ v) (t : Term) :
    (θ.bind v t).lookup w = θ.lookup w :=
  Ascending.lookup_alter_of_ne h (fun _ => t) θ.bindings

@[simp]
theorem lookup_unbind_self (θ : Substitution) (v : Variable) : (θ.unbind v).lookup v = none :=
  Ascending.lookup_erase_self v θ.bindings

theorem lookup_unbind_of_ne (θ : Substitution) {v w : Variable} (h : w ≠ v) :
    (θ.unbind v).lookup w = θ.lookup w :=
  Ascending.lookup_erase_of_ne h θ.bindings

/-- Binding an unbound variable and taking the binding back gives the same substitution. -/
theorem unbind_bind (θ : Substitution) {v : Variable} (h : θ.lookup v = none) (t : Term) :
    (θ.bind v t).unbind v = θ := by
  obtain ⟨bindings⟩ := θ
  have hkeys : ∀ entry ∈ bindings, entry.1 ≠ v := by
    intro entry hentry heq
    have := List.lookup_eq_none_iff.1 h entry hentry
    simp [heq] at this
  simp only [bind, unbind, Substitution.mk.injEq, Ascending.erase]
  clear h
  induction bindings with
  | nil => simp [Ascending.alter]
  | cons entry rest ih =>
    have hentry : entry.1 ≠ v := hkeys entry List.mem_cons_self
    have hrest : ∀ e ∈ rest, e.1 ≠ v := fun e he => hkeys e (List.mem_cons_of_mem _ he)
    have hfilter : rest.filter (fun e => e.1 ≠ v) = rest :=
      List.filter_eq_self.2 fun e he => by simpa using hrest e he
    simp only [Ascending.alter]
    split
    · simpa [hentry] using hfilter
    · rename_i heq
      exact absurd (Std.LawfulEqOrd.eq_of_compare heq).symm hentry
    · simpa [hentry] using ih hrest

end Substitution

end ExistentialRules
