import ExistentialRules.Event

/-!
# Results with a log

A `Logged α` is a value together with the events that led to it. Events are only ever added, and no
value depends on them, so that a verdict can be reasoned about as if nothing were logged: the simp
lemmas of this module push `Logged.value` through every way of building a logged result.

## Main statements

* `Logged.value_bind`, `Logged.value_mapM`, `Logged.value_any`: the value of a computation is that
  of its parts;
* `Logged.any_cons`, `Logged.any_append`, `Logged.any_flatMap`, `Logged.any_map`: a search through a
  list can be split where the list can.
-/

namespace ExistentialRules

universe u v

/-! ## §1 Values with events -/

/-- A value and the events that led to it, in order. -/
@[ext]
structure Logged (α : Type u) where
  /-- The value. -/
  value : α
  /-- The events. -/
  log : Array Event

namespace Logged

variable {α : Type u} {β : Type v}

instance : Monad Logged.{u} where
  pure a := ⟨a, #[]⟩
  bind x f :=
    let y := f x.value
    ⟨y.value, x.log ++ y.log⟩

/-- Report an event. -/
def tell (e : Event) : Logged Unit :=
  ⟨(), #[e]⟩

/-- The events up to a level. -/
def upTo (limit : Level) (x : Logged α) : List Event :=
  x.log.toList.filter fun e => limit.admits e.level

@[simp]
theorem value_pure (a : α) : (pure a : Logged α).value = a :=
  rfl

@[simp]
theorem log_pure (a : α) : (pure a : Logged α).log = #[] :=
  rfl

@[simp]
theorem value_bind {γ : Type u} (x : Logged α) (f : α → Logged γ) :
    (x >>= f).value = (f x.value).value :=
  rfl

@[simp]
theorem log_bind {γ : Type u} (x : Logged α) (f : α → Logged γ) :
    (x >>= f).log = x.log ++ (f x.value).log :=
  rfl

@[simp]
theorem value_map {γ : Type u} (f : α → γ) (x : Logged α) : (f <$> x).value = f x.value :=
  rfl

@[simp]
theorem value_tell (e : Event) : (tell e).value = () :=
  rfl

@[simp]
theorem value_ite (c : Prop) [Decidable c] (x y : Logged α) :
    (if c then x else y).value = if c then x.value else y.value := by
  split
  · rfl
  · rfl

instance : LawfulMonad Logged.{u} :=
  LawfulMonad.mk' Logged
    (fun x => Logged.ext rfl (Array.append_empty))
    (fun a f => Logged.ext rfl (by simp))
    (fun x f g => Logged.ext rfl (by simp))

@[simp]
theorem value_mapM (f : β → Logged α) (bs : List β) :
    (bs.mapM f).value = bs.map fun b => (f b).value := by
  induction bs with
  | nil => rfl
  | cons b bs ih => simp [ih]

/-! ## §2 Searching -/

/-- Try the elements in order up to the first that is accepted, after the events `log`. -/
def anyFrom (f : β → Logged Bool) (log : Array Event) : List β → Logged Bool
  | [] => ⟨false, log⟩
  | b :: bs =>
    let r := f b
    if r.value then ⟨true, log ++ r.log⟩ else anyFrom f (log ++ r.log) bs

/-- Whether an element is accepted: they are tried in order, up to the first that is. -/
def any (bs : List β) (f : β → Logged Bool) : Logged Bool :=
  anyFrom f #[] bs

theorem anyFrom_eq (f : β → Logged Bool) (log : Array Event) (bs : List β) :
    anyFrom f log bs = ⟨(any bs f).value, log ++ (any bs f).log⟩ := by
  induction bs generalizing log with
  | nil => simp [anyFrom, any]
  | cons b bs ih =>
    simp only [any, anyFrom]
    split
    · simp
    · rw [ih (log ++ (f b).log), ih (#[] ++ (f b).log)]
      simp

@[simp]
theorem any_nil (f : β → Logged Bool) : any [] f = pure false :=
  rfl

theorem any_cons (b : β) (bs : List β) (f : β → Logged Bool) :
    any (b :: bs) f = f b >>= fun accepted => if accepted then pure true else any bs f := by
  show (if (f b).value then _ else anyFrom f (#[] ++ (f b).log) bs) = _
  rw [anyFrom_eq]
  by_cases h : (f b).value = true
  · ext <;> simp [h]
  · ext <;> simp [h]

@[simp]
theorem value_any (bs : List β) (f : β → Logged Bool) :
    (any bs f).value = bs.any fun b => (f b).value := by
  induction bs with
  | nil => rfl
  | cons b bs ih =>
    rw [any_cons, List.any_cons, ← ih]
    by_cases h : (f b).value = true
    · simp [h]
    · simp [h]

theorem any_append (as bs : List β) (f : β → Logged Bool) :
    any (as ++ bs) f = any as f >>= fun accepted => if accepted then pure true else any bs f := by
  induction as with
  | nil => simp
  | cons a as ih =>
    rw [List.cons_append, any_cons, any_cons, ih, bind_assoc]
    congr 1
    funext accepted
    cases accepted
    · simp
    · simp

theorem any_map {γ : Type u} (g : γ → β) (cs : List γ) (f : β → Logged Bool) :
    any (cs.map g) f = any cs fun c => f (g c) := by
  induction cs with
  | nil => rfl
  | cons c cs ih => rw [List.map_cons, any_cons, any_cons, ih]

theorem any_flatMap {γ : Type u} (g : γ → List β) (cs : List γ) (f : β → Logged Bool) :
    any (cs.flatMap g) f = any cs fun c => any (g c) f := by
  induction cs with
  | nil => rfl
  | cons c cs ih => rw [List.flatMap_cons, any_append, any_cons, ih]

end Logged

end ExistentialRules
