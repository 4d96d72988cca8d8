import Mathlib.Data.List.Basic

/-!
Contract: the slots of `threads.c`, which `main` uses for its clients and every client
for its commands.
-/

namespace BitcoinServer

variable {flags : Nat → Bool} {count slot : Nat}

/-- `get_avail_thread`: the first of the `count` slots whose flag is 0, `none` being `-1`. -/
def getAvailThread (flags : Nat → Bool) (count : Nat) : Option Nat :=
  (List.range count).find? fun i => !flags i

theorem flag_of_getAvailThread (avail : getAvailThread flags count = some slot) :
    flags slot = false := by
  simpa using List.find?_some avail

theorem getAvailThread_lt (avail : getAvailThread flags count = some slot) : slot < count :=
  List.mem_range.mp (List.mem_of_find?_eq_some avail)

end BitcoinServer
