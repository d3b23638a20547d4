/-
  Scytale.Lib.Outcome — what a computation that can fail ensures: `Q` of a result, `E` of a
  failure. A computation in steps is bounded step by step (`Ensures.bind`).
-/
import Mathlib.Tactic.Common

namespace Scytale.Lib

variable {ε α β : Type} {E : ε → Prop} {P Q : α → Prop} {R : β → Prop}

def Ensures (E : ε → Prop) (Q : α → Prop) : Except ε α → Prop
  | .ok a => Q a
  | .error e => E e

/-- Continuations need only agree on a result. -/
theorem bind_congr_ok {x : Except ε α} {f g : α → Except ε β} (h : ∀ a, x = .ok a → f a = g a) : x >>= f = x >>= g := by
  cases x with
  | ok a => exact h a rfl
  | error e => rfl

namespace Ensures

@[simp] theorem ok_iff {a : α} : Ensures E Q (.ok a) ↔ Q a := Iff.rfl

@[simp] theorem pure_iff {a : α} : Ensures E Q (pure a) ↔ Q a := Iff.rfl

@[simp] theorem error_iff {e : ε} : Ensures E Q (.error e) ↔ E e := Iff.rfl

@[simp] theorem throw_iff {e : ε} : Ensures E Q (throw e) ↔ E e := Iff.rfl

theorem bind {x : Except ε α} {f : α → Except ε β} (hx : Ensures E P x) (hf : ∀ a, P a → Ensures E R (f a)) :
    Ensures E R (x >>= f) := by
  cases x with
  | ok a => exact hf a hx
  | error e => exact hx

theorem mono {x : Except ε α} (hx : Ensures E P x) (h : ∀ a, P a → Q a) : Ensures E Q x := by
  cases x with
  | ok a => exact h a hx
  | error e => exact hx

theorem of_ok {x : Except ε α} {a : α} (hx : Ensures E Q x) (h : x = .ok a) : Q a := by
  rw [h] at hx
  exact hx

theorem of_error {x : Except ε α} {e : ε} (hx : Ensures E Q x) (h : x = .error e) : E e := by
  rw [h] at hx
  exact hx

end Ensures

end Scytale.Lib
