import ContractCoverage.Trace.Step

/-! Call frames: the steps of one call without those of the calls nested in it.

A step at a greater depth than the one before enters a new frame; a step at a smaller
depth returns to the frame of that depth, or enters a new one when none is active. The
steps are labelled with the number of their frame first (`labels`), where frames are
numbered as they are entered, and a frame is then the steps of one label. -/
namespace ContractCoverage

/-- The steps of one call. -/
structure Frame where
  depth : Value
  steps : List Step

namespace Frame

/-- The active calls, innermost first: their depths and the numbers of their frames. -/
abbrev Stack := List (Value × Nat)

/-- Leaves the calls that are deeper than a step. -/
def unwind (depth : Value) : Stack → Except ShapeFault Stack
  | [] => .ok []
  | (top, label) :: rest => do
    if ← depth.less top then unwind depth rest else return (top, label) :: rest

/-- Enters a call when a step is deeper than the innermost active call. The number is that of the
next frame to be entered. -/
def enter (depth : Value) (next : Nat) : Stack → Except ShapeFault (Stack × Nat)
  | [] => .ok ([(depth, next)], next + 1)
  | (top, label) :: rest => do
    if ← top.less depth then return ((depth, next) :: (top, label) :: rest, next + 1)
    else return ((top, label) :: rest, next)

/-- The frame numbers of steps, given the active calls and the number of the next frame. -/
def labelsFrom (stack : Stack) (next : Nat) : List Step → Except ShapeFault (List Nat)
  | [] => .ok []
  | step :: steps => do
    let stack ← unwind step.depth stack
    let (stack, next) ← enter step.depth next stack
    let labels ← labelsFrom stack next steps
    return (stack.headD (.null, 0)).2 :: labels

/-- The number of the frame of every step. -/
def labels (steps : List Step) : Except ShapeFault (List Nat) := labelsFrom [] 0 steps

/-- The steps that carry a label. -/
def ofLabel (steps : List Step) (labels : List Nat) (label : Nat) : Frame :=
  let own := ((steps.zip labels).filter (·.2 == label)).map (·.1)
  ⟨(own.head?.map (·.depth)).getD .null, own⟩

/-- The frames of a trace in the order in which they were entered. -/
def ofSteps (steps : List Step) : Except ShapeFault (List Frame) := do
  let labels ← labels steps
  let count := labels.foldl (fun n label => max n (label + 1)) 0
  return (List.range count).map (ofLabel steps labels)

/-- The number of steps of a frame. -/
def size (f : Frame) : Nat := f.steps.length

end Frame

end ContractCoverage
