import EvmFlow.Walk.Step

/-!
# The walk

The walk over code follows all paths until none is open. It need not end: an
instruction whose width is not positive may send a path back for ever, to
offsets ever further before the code. If no instruction goes back, every step
expands an offset of the code or closes a path, so the walk ends.

* `Walk.run` follows the open paths of a state;
* `Walk.report` is the outcome: a violation, or a summary of what was visited.
-/

namespace EvmFlow.Walk

/-- Follows the open paths until none is left. -/
def run (w : Walk) (s : State) : Except Violation State :=
  match s.paths with
  | [] => .ok s
  | p :: others =>
    match w.step s p others with
    | .error v => .error v
    | .ok t => w |>.run t
partial_fixpoint

/-- The outcome of the walk: the first violation found, or a summary. -/
def report (w : Walk) : Except Violation Report :=
  (w.run .start).map fun s => s.report w.code.size

end EvmFlow.Walk
