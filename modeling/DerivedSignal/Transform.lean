import DerivedSignal.Alignment
import DerivedSignal.Definition
import DerivedSignal.Evaluator
import DerivedSignal.Template
import DerivedSignal.Text.Quoted

namespace DerivedSignal

/-- A definition with the evaluator that it is bound to. -/
structure Transform (σ : Type) where
  definition : Definition
  slotted : Template.Slotted
  shape : OutputShape
  evaluator : σ
  /-- The timestamp of the last linked sample that was processed. -/
  mark : Float
  /-- The outputs that were created and not yet written by a successful pass. -/
  staged : List String
  /-- Whether the next successful pass replaces the outputs instead of appending to them. -/
  replaces : Bool

/-- The results of a pass: each sample's timestamp and values, and the bound of the linked series. -/
structure Pass where
  samples : List (Float × List Float)
  bound : Option Float

namespace Pass

/-- The timestamp of the last sample. -/
def last? (p : Pass) : Option Float := p.samples.getLast?.map (·.1)

/-- The points of one output. -/
def column (p : Pass) (output : Nat) : List Point :=
  p.samples.filterMap fun (x, ys) => ys[output]?.map fun y => ⟨x, y⟩

end Pass

namespace Transform

variable {σ : Type}

/-- The names of the output series. -/
def outputs (t : Transform σ) : List String := t.shape.outputNames t.definition.name

/-- Quoted texts between brackets. -/
def quotedList (texts : List String) : String :=
  "[" ++ ", ".intercalate (texts.map Text.quoted) ++ "]"

/-- Definition, channels, outputs and mark on one line. -/
def summary (t : Transform σ) : String :=
  "CompiledTransform \x7b definition: Definition \x7b name: " ++ Text.quoted t.definition.name ++
    ", linked_series: " ++ Text.quoted t.definition.linked ++
    ", global_vars: " ++ Text.quoted t.definition.globals ++
    ", expression: " ++ Text.quoted t.definition.expression ++
    " \x7d, channels: " ++ quotedList t.slotted.channels ++
    ", output_names: " ++ quotedList t.outputs ++
    ", high_water_mark: " ++ NumberText.plain t.mark ++ " \x7d"

section Compilation

variable [Evaluator σ]

/-- The error of a failed trial call. -/
def trialError : Error → Error
  | .compile m => .compile m
  | e => .compile ("introspection failed: " ++ e.message)

/-- Compiles a definition: loads the preamble, binds the expression, and evaluates it once at time
zero with ones for all values, which fixes the shape of the outputs; then the evaluator is reset. -/
def compile (d : Definition) (evaluator : σ) : σ × Attempt (Transform σ) :=
  match Template.assignSlots d.expression d.linked with
  | .error e => (evaluator, .failed e)
  | .ok slotted =>
    match Evaluator.loadGlobals evaluator d.globals with
    | (s, .abort why) => (s, .abort why)
    | (s, .failed e) => (s, .failed e)
    | (s, .done ()) =>
      match Evaluator.bind s slotted.text with
      | (s, .abort why) => (s, .abort why)
      | (s, .failed e) => (s, .failed e)
      | (s, .done ()) =>
        match Evaluator.call s 0 1 (slotted.channels.map fun _ => 1) with
        | (s, .abort why) => (s, .abort why)
        | (s, .failed e) => (s, .failed (trialError e))
        | (s, .done value) =>
          match OutputShape.ofReading value with
          | .error e => (s, .failed e)
          | .ok shape =>
            match Evaluator.reset s with
            | (s, .abort why) => (s, .abort why)
            | (s, .failed e) => (s, .failed e)
            | (s, .done ()) =>
              (s, .done ⟨d, slotted, shape, s, FloatMath.negInfinity, [], true⟩)

end Compilation

/-- Creates the outputs that are missing, and stages them. -/
def createOutputs : List String → List String → Registry → List String × Registry
  | [], staged, r => (staged, r)
  | name :: names, staged, r =>
    if r.contains name then createOutputs names staged r
    else createOutputs names (if staged.contains name then staged else staged ++ [name])
      (Registry.create r name)

/-- Creates the missing outputs and starts the signal over with the next pass. -/
def register (t : Transform σ) (r : Registry) : Transform σ × Registry :=
  let (staged, r) := createOutputs t.outputs t.staged r
  ({ t with staged, mark := FloatMath.negInfinity, replaces := true }, r)

/-- Removes the output series. -/
def remove (t : Transform σ) (r : Registry) : Registry :=
  t.outputs.foldl (fun r name => r.erase name) r

/-- The values of a result, or the error of its shape. -/
def extract (t : Transform σ) (x : Float) (value : Reading) : Except Error (List Float) :=
  match t.shape.extract value with
  | .ok ys => .ok ys
  | .error actual => .error (.shapeMismatch t.definition.name x t.shape.describe actual)

/-- Evaluates samples one after another, up to the first that fails. -/
def evaluateAll [Evaluator σ] (t : Transform σ) (channels : List Series) :
    σ → List Point → σ × Attempt (List (Float × List Float))
  | s, [] => (s, .done [])
  | s, p :: ps =>
    match Evaluator.call s p.x p.y (Alignment.align channels p.x) with
    | (s, .abort why) => (s, .abort why)
    | (s, .failed e) => (s, .failed e)
    | (s, .done value) =>
      match t.extract p.x value with
      | .error e => (s, .failed e)
      | .ok ys =>
        let (s, rest) := evaluateAll t channels s ps
        (s, rest.map ((p.x, ys) :: ·))

/-- Evaluates the linked samples later than `mark`; nothing if there is no linked series. -/
def evaluate [Evaluator σ] (t : Transform σ) (r : Registry) (mark : Float) (s : σ) :
    σ × Attempt (Option Pass) :=
  match r.find? t.definition.linked with
  | none => (s, .done none)
  | some linked =>
    match Alignment.resolve r t.slotted.channels with
    | .error e => (s, .failed e)
    | .ok channels =>
      let (s, samples) := t.evaluateAll channels s (linked.after mark)
      (s, samples.map fun samples => some ⟨samples, linked.bound⟩)

/-- Writes the points of an output, over the old ones or behind them. -/
def writeOutput (replace : Bool) (bound : Option Float) (points : List Point) (s : Series) :
    Series :=
  ((if replace then s.clear else s).setBound bound).pushAll points

/-- Writes the outputs from the `index`-th on. -/
def writeOutputs (replace : Bool) (p : Pass) : Nat → List String → Registry → Registry
  | _, [], r => r
  | index, name :: names, r =>
    writeOutputs replace p (index + 1) names
      (r.insert name (writeOutput replace p.bound (p.column index) (Registry.getD r name)))

/-- Takes over the results of a pass. Returns the number of points that each output got. -/
def commit (t : Transform σ) (r : Registry) (p : Pass) (replace : Bool) :
    Transform σ × Registry × Nat :=
  let mark := match p.last? with
    | some x => x
    | none => if replace then FloatMath.negInfinity else t.mark
  ({ t with mark, staged := [], replaces := false },
    writeOutputs replace p 0 t.outputs r,
    if t.outputs.isEmpty then 0 else p.samples.length)

/-- Undoes a failed pass. -/
def rollback [Evaluator σ] (t : Transform σ) (r : Registry) : Transform σ × Registry :=
  ({ t with evaluator := Evaluator.restore t.evaluator, staged := [] },
    t.staged.foldl (fun r name => r.erase name) r)

/-- Ends a pass: takes over its results, or undoes it. -/
def finish [Evaluator σ] (t : Transform σ) (r : Registry) (replace : Bool) :
    Attempt (Option Pass) → Transform σ × Registry × Attempt Nat
  | .done (some p) =>
    let (t, r, count) := t.commit r p replace
    (t, r, .done count)
  | .done none => ({ t with staged := [] }, r, .done 0)
  | .failed e =>
    let (t, r) := t.rollback r
    (t, r, .failed e)
  | .abort why => (t, r, .abort why)

/-- Evaluates the linked samples later than the mark. Without a linked series there is nothing to
do. -/
def update [Evaluator σ] (t : Transform σ) (r : Registry) : Transform σ × Registry × Attempt Nat :=
  let (s, outcome) := t.evaluate r t.mark (Evaluator.checkpoint t.evaluator)
  { t with evaluator := s }.finish r t.replaces outcome

/-- Evaluates the whole linked series again, on fresh global variables, and replaces the outputs. -/
def rebuild [Evaluator σ] (t : Transform σ) (r : Registry) : Transform σ × Registry × Attempt Nat :=
  if r.contains t.definition.linked then
    match Evaluator.reset (Evaluator.checkpoint t.evaluator) with
    | (s, .done ()) =>
      let (s, outcome) := t.evaluate r FloatMath.negInfinity s
      { t with evaluator := s }.finish r true outcome
    | (s, .failed e) => { t with evaluator := s }.finish r true (.failed e)
    | (s, .abort why) => { t with evaluator := s }.finish r true (.abort why)
  else ({ t with staged := [] }, r, .done 0)

end Transform

end DerivedSignal
