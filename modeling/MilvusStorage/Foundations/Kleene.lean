import Mathlib.Data.Option.Basic

/-!
# Three-valued logic

Truth values are `some true`, `some false` and `none` (unknown). The connectives are Kleene's: a
connective is known as soon as the known operands decide it.
-/

namespace Kleene

def not (a : Option Bool) : Option Bool := a.map Bool.not

def and : Option Bool → Option Bool → Option Bool
  | some false, _ => some false
  | _, some false => some false
  | some true, some true => some true
  | _, _ => none

def or : Option Bool → Option Bool → Option Bool
  | some true, _ => some true
  | _, some true => some true
  | some false, some false => some false
  | _, _ => none

variable {a b : Option Bool} {p : Bool}

theorem not_eq_some : not a = some p ↔ a = some (!p) := by
  rcases a with _ | _ | _ <;> cases p <;> decide

theorem and_eq_true : and a b = some true ↔ a = some true ∧ b = some true := by
  rcases a with _ | _ | _ <;> rcases b with _ | _ | _ <;> decide

theorem and_eq_false : and a b = some false ↔ a = some false ∨ b = some false := by
  rcases a with _ | _ | _ <;> rcases b with _ | _ | _ <;> decide

theorem or_eq_true : or a b = some true ↔ a = some true ∨ b = some true := by
  rcases a with _ | _ | _ <;> rcases b with _ | _ | _ <;> decide

theorem or_eq_false : or a b = some false ↔ a = some false ∧ b = some false := by
  rcases a with _ | _ | _ <;> rcases b with _ | _ | _ <;> decide

section

variable {a' b' : Option Bool} (ha : a = some p → a' = some p) (hb : b = some p → b' = some p)
include ha hb

/-- A conjunction keeps a truth value that both operands keep. -/
theorem and_eq_of_imp (h : and a b = some p) : and a' b' = some p := by
  cases p with
  | true => exact and_eq_true.mpr ((and_eq_true.mp h).imp ha hb)
  | false => exact and_eq_false.mpr ((and_eq_false.mp h).imp ha hb)

/-- A disjunction keeps a truth value that both operands keep. -/
theorem or_eq_of_imp (h : or a b = some p) : or a' b' = some p := by
  cases p with
  | true => exact or_eq_true.mpr ((or_eq_true.mp h).imp ha hb)
  | false => exact or_eq_false.mpr ((or_eq_false.mp h).imp ha hb)

end

@[simp] theorem false_or : or (some false) a = a := by
  rcases a with _ | _ | _ <;> rfl

end Kleene
