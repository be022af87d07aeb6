import EffectTorch.Compiler.Alias
import EffectTorch.Lib.Worklist
import Mathlib

/-!
# Dense overlap

`runtime-cuda/src/planned_overlap.rs`: after lowering and before memory planning,
`plan_dense_overlap` looks for a branch of three projections that can run on a
second stream while the primary stream computes routed experts. It marks the
commands of the branch and the command that joins them, and adds the values that
the branch touches to the join, so that liveness keeps them until there.
-/

namespace EffectTorch
open Lib

/-! ## Commands -/

/-- `workspace.rs`: the memory spaces of the backend. -/
inductive CudaMemorySpace where
  | device
deriving DecidableEq, Repr

/-- Instructions carry the name of their kind. -/
abbrev CudaLoweredProgram := LoweredProgram String CudaMemorySpace

/-- `executable.rs`: the model state that a kernel reads. -/
inductive StateAccess where
  | none
  | rotary
  | lastToken
  | kv
  | kda
  | conv
deriving DecidableEq, Repr

/-- `lowering.rs`: a command with the fields that overlap planning reads. -/
inductive CommandKind where
  | softmax100
  | normRope101
  | norm98Entrance
  | norm98Tail
  | prepare
  | value
  | input
  | scalar
  | cursor
  | aliasOf
  | plannedAlias
  | gemm (outF32 : Bool)
  | gemmPair
  | packedProjection77 (outputs : List ValueId)
  | fusedMoe75
  | groupedExpert (reuseRouting : Bool)
  | linearBias
  | fusedElementwise
  | kernel (name : String) (checked : Bool) (state : StateAccess) (kvMatmul : Bool)
deriving DecidableEq, Repr

/-- The stream that a command runs on. -/
inductive CommandOverlap where
  | primary
  | worker (branch : Nat) (start finish : Bool)
  | join (branch : Nat)
deriving DecidableEq, Repr

structure Command where
  output : Option ValueId
  kind : CommandKind
  overlap : CommandOverlap
deriving DecidableEq, Repr

/-- `worker_command`: the commands that the second stream may run. -/
def workerCommand (command : Command) : Bool :=
  match command.kind with
  | .gemm outF32 => !outF32
  | .packedProjection77 _ => true
  | .fusedElementwise => true
  | .kernel name checked state kvMatmul =>
    !checked && !name.startsWith "et_random_" && state == .none && !kvMatmul
  | _ => false

/-- `host_command`: the commands that only bind values. -/
def hostCommand (command : Command) : Bool :=
  match command.kind with
  | .prepare | .value | .input | .aliasOf | .plannedAlias => true
  | _ => false

/-- The groups that a branch may run beside. -/
def groupCommand (command : Command) : Bool :=
  match command.kind with
  | .groupedExpert reuseRouting => !reuseRouting
  | .fusedMoe75 => true
  | _ => false

/-- How many projections a command computes. -/
def gemmCount (command : Command) : Nat :=
  match command.kind with
  | .gemm _ => 1
  | .packedProjection77 outputs => outputs.length
  | _ => 0

/-! ## Commands and their instructions -/

/-- Instructions of these kinds run outside of the command loop. -/
def stateInstruction (instruction : LoweredInstruction String) : Bool :=
  instruction.kind ∈ ["state_prepare", "state_commit", "state_discard", "status_check"]

/-- `instruction_positions`: where the instruction of each command is. -/
def instructionPositions (program : CudaLoweredProgram) : List Nat :=
  (program.instructions.zipIdx.filter fun entry => !stateInstruction entry.1).map (·.2)

/-- A command with its instruction. -/
structure Step where
  command : Command
  instruction : LoweredInstruction String

/-- The commands with `program.instructions[instruction_positions[position]]`. -/
def commandSteps (program : CudaLoweredProgram) (commands : List Command) : List Step :=
  (commands.zip (program.instructions.filter fun instruction => !stateInstruction instruction)).map
    fun (command, instruction) => ⟨command, instruction⟩

/-- The entry that holds a value's storage. The source panics on an id outside of
the table; `planDenseOverlap` rejects such a program before it looks one up. -/
def root (aliases : List NormalizedAlias) (id : ValueId) : Nat :=
  (aliases[id.index]?.map (·.root.index)).getD id.index

/-- `producers[root].get_or_insert(position)` for each output of each command. -/
def producersOf (aliases : List NormalizedAlias) (size : Nat) (steps : List Step) :
    List (Option Nat) :=
  steps.zipIdx.foldl (fun table entry =>
    entry.1.instruction.outputs.foldl (fun table output =>
      table.modify (root aliases output.value) fun producer => producer.or (some entry.2)) table)
    (List.replicate size none)

/-- `BTreeSet::insert`. -/
def insertKey (key : Nat) : List Nat → List Nat
  | [] => [key]
  | k :: keys =>
    if key < k then key :: k :: keys
    else if key = k then k :: keys
    else k :: insertKey key keys

/-! ## The search -/

section Search

variable (aliases : List NormalizedAlias) (size : Nat) (steps : List Step)

/-- The roots other than `value` that a step reads. -/
def dependenciesOf (step : Step) (value : Nat) : List Nat :=
  (step.instruction.resourceUses.filter fun resource =>
    resource.access.reads && root aliases resource.value ≠ value).map (root aliases ·.value)

def usesRoot (p : ValueAccess → Bool) (step : Step) (roots : List Nat) : Bool :=
  step.instruction.resourceUses.any fun resource =>
    p resource.access && decide (root aliases resource.value ∈ roots)

/-- No step pushes more than this many values. A traversal expands each root once, so this for each root and the
values that it starts from are enough fuel. -/
def pushLimit : Nat := (steps.map fun step => step.instruction.resourceUses.length).sum

/-- The step that produces `value` first. -/
def producerOf (value : Nat) : Option Nat :=
  ((producersOf aliases size steps)[value]?).join

/-- One turn of the loop of `ancestors`. -/
def visitAncestor (found : List Nat) (value : Nat) : Option (List Nat × List Nat) :=
  if value ∈ found then some (found, [])
  else match producerOf aliases size steps value with
    | none => some (value :: found, [])
    | some position => some (value :: found,
        (steps[position]?.map (dependenciesOf aliases · value)).getD [])

/-- The closure `ancestors`. -/
def ancestors (seeds : List Nat) : List Nat :=
  (worklist (visitAncestor aliases size steps) (pushLimit steps * size + seeds.length) []
    seeds.reverse).getD []

/-- One turn of the loop that collects a branch back from a value that its join
reads. The state holds `selected` and `visited`. -/
def visitProducer (join : Nat) (boundary : List Nat) (state : List Nat × List Nat) (value : Nat) :
    Option ((List Nat × List Nat) × List Nat) :=
  let (selected, visited) := state
  if value ∈ boundary ∨ value ∈ visited then some (state, [])
  else match producerOf aliases size steps value with
    | none => some ((selected, value :: visited), [])
    | some position =>
      if join ≤ position then none
      else match steps[position]? with
        | none => none
        | some step =>
          if hostCommand step.command then some ((selected, value :: visited), [])
          else if !workerCommand step.command || step.instruction.effects.hasSideEffects then none
          else if position ∈ selected then some ((selected, value :: visited), [])
          else some ((insertKey position selected, value :: visited),
            dependenciesOf aliases step value)

/-- The steps that `value` needs beyond the boundary, unless one of them cannot run
on the second stream. -/
def collectBranch (join : Nat) (boundary : List Nat) (value : Nat) : Option (List Nat) :=
  (worklist (visitProducer aliases size steps join boundary) (pushLimit steps * size + 1)
    ([], []) [value]).map (·.1)

/-- A branch: its steps in order, the step that waits for them, and the roots that
they touch. -/
structure OverlapBranch where
  selected : List Nat
  join : Nat
  touched : List Nat
deriving DecidableEq, Repr

/-- The roots that the selected steps use with an access of kind `p`. -/
def rootsOf (p : ValueAccess → Bool) (selected : List Nat) : List Nat :=
  selected.flatMap fun position =>
    ((steps[position]?.map (·.instruction.resourceUses)).getD []).filterMap fun resource =>
      if p resource.access then some (root aliases resource.value) else none

/-- Some step of `first..join` is neither selected nor a host command and uses one
of `roots` with an access of kind `p`. -/
def outsideUse (p : ValueAccess → Bool) (selected : List Nat) (first join : Nat)
    (roots : List Nat) : Bool :=
  (List.range' first (join - first)).any fun position =>
    decide (position ∉ selected) && steps[position]?.any fun step =>
      !hostCommand step.command && usesRoot aliases p step roots

/-- A step that is neither selected nor a host command produces one of `roots` at
`first` or later. -/
def lateProducer (selected : List Nat) (first : Nat) (roots : List Nat) : Bool :=
  roots.any fun value => (producerOf aliases size steps value).any fun position =>
    decide (position ∉ selected) && decide (first ≤ position) &&
      steps[position]?.any fun step => !hostCommand step.command

/-- One turn of the loop over the inputs of a candidate join. -/
def tryBranch (group join occupiedUntil : Nat) (boundary dependent : List Nat)
    (input : ValueUse) : Option OverlapBranch :=
  let value := root aliases input.value
  if value ∈ dependent ∨ value ∈ boundary then none
  else match collectBranch aliases size steps join boundary value with
    | none => none
    | some selected =>
      let gemms := (selected.map fun position =>
        (steps[position]?.map fun step => gemmCount step.command).getD 0).sum
      if gemms ≠ 3 then none
      else match selected.head? with
        | none => none
        | some first =>
          let touched := (rootsOf aliases steps (fun _ => true) selected).foldr insertKey []
          let produced := rootsOf aliases steps ValueAccess.writes selected
          if group ≤ first then none
          else if first < occupiedUntil then none
          -- The worker waits only once, at its start.
          else if lateProducer aliases size steps selected first touched then none
          -- Borrowed storage must not change in the window.
          else if outsideUse aliases steps ValueAccess.writes selected first join touched then none
          -- Nothing may consume what the worker writes before the join.
          else if outsideUse aliases steps ValueAccess.reads selected first join produced then none
          else some ⟨selected, join, touched⟩

/-- The loop over the joins after a group. -/
def searchJoins (group occupiedUntil : Nat) (boundary : List Nat) :
    List (Step × Nat) → List Nat → Option OverlapBranch
  | [], _ => none
  | (step, join) :: joins, dependent =>
    let hasDependent := step.instruction.inputs.any fun input =>
      decide (root aliases input.value ∈ dependent)
    let dependent := if hasDependent then
      step.instruction.outputs.map (root aliases ·.value) ++ dependent else dependent
    let accepted := if hasDependent && workerCommand step.command then
      step.instruction.inputs.findSome?
        (tryBranch aliases size steps group join occupiedUntil boundary dependent)
      else none
    accepted.or (searchJoins group occupiedUntil boundary joins dependent)

/-- One turn of the loop over the groups. The state holds `planned` and
`occupied_until`. -/
def searchGroup (state : List OverlapBranch × Nat) (entry : Step × Nat) :
    List OverlapBranch × Nat :=
  if groupCommand entry.1.command then
    let boundary := ancestors aliases size steps
      (entry.1.instruction.inputs.map (root aliases ·.value))
    let dependent := entry.1.instruction.outputs.map (root aliases ·.value)
    match searchJoins aliases size steps entry.2 state.2 boundary
        (steps.zipIdx.drop (entry.2 + 1)) dependent with
    | some branch => (state.1 ++ [branch], branch.join + 1)
    | none => state
  else state

/-- The branches, in the order of their groups. -/
def plannedBranches : List OverlapBranch :=
  (steps.zipIdx.foldl (searchGroup aliases size steps) ([], 0)).1

end Search

/-! ## Marking and retention -/

def setOverlap (commands : List Command) (position : Nat) (overlap : CommandOverlap) :
    List Command :=
  commands.modify position fun command => { command with overlap }

/-- Marks the commands of one branch and its join. -/
def markBranch (commands : List Command) (entry : OverlapBranch × Nat) : List Command :=
  let (branch, index) := entry
  let marked := branch.selected.zipIdx.foldl (fun commands (position, i) =>
    setOverlap commands position
      (.worker index (decide (i = 0)) (decide (i + 1 = branch.selected.length)))) commands
  setOverlap marked branch.join (.join index)

/-- Adds the touched values to the scratch of a join instruction. -/
def retainTouched (aliases : List NormalizedAlias) (touched : List Nat)
    (instruction : LoweredInstruction String) : LoweredInstruction String :=
  let existing := instruction.resourceUses.map (root aliases ·.value)
  let retained := (touched.filter fun value => value ∉ existing).map fun value =>
    ValueUse.read ⟨root aliases ⟨value⟩⟩
  { instruction with scratch := instruction.scratch ++ retained }

/-- Extends the instruction of one branch's join. -/
def retainBranch (aliases : List NormalizedAlias) (positions : List Nat)
    (instructions : List (LoweredInstruction String)) (branch : OverlapBranch) :
    List (LoweredInstruction String) :=
  match positions[branch.join]? with
  | some position => instructions.modify position (retainTouched aliases branch.touched)
  | none => instructions

/-- `plan_dense_overlap`: the program with retained values, the marked commands and
the number of branches. -/
def planDenseOverlap (program : CudaLoweredProgram) (commands : List Command) :
    Fallible String (CudaLoweredProgram × List Command × Nat) := do
  let positions := instructionPositions program
  rejectIf (positions.length ≠ commands.length)
    "compile: CUDA overlap command/instruction mapping mismatch"
  let aliases ← mapErr PlannerError.display (normalizeAliases program.values)
  let steps := commandSteps program commands
  expect (if ∀ step ∈ steps, ∀ resource ∈ step.instruction.resourceUses,
      resource.value.index < aliases.length then some () else none) "index out of bounds"
  let planned := plannedBranches aliases program.values.length steps
  .ok ({ program with
      instructions := planned.foldl (retainBranch aliases positions) program.instructions },
    planned.zipIdx.foldl markBranch commands, planned.length)

end EffectTorch
