import Supermartingale.Invariant

/-!
# Conditions on the steps of a certificate

As long as the safety template is not positive, every step decreases it in expectation and changes it by a bounded
amount. The liveness template decreases in expectation outside of every acceptance set; elsewhere it rises by a
bounded amount only.
-/

namespace Supermartingale.Certificate

/-! ## Conditions on states -/

def within (m : Model) (i : Invariant) (state : String) : Except Error Formula := do
  Formula.conjoin (.ofInequalities m.space) (.ofInequality (← i.holdsAt state))

def initial (c : Certificate) (m : Model) : Except Error (List Constraint) := do
  let start ← c.safe.family.get m.automaton.start
  let conclusion := Inequality.make start .le c.parameters.level
  let premise ← Formula.conjoin (.ofInequalities (m.space ++ m.initial))
  return [← Constraint.imply c.names premise (← Formula.conjoin (.ofInequality conclusion))]

def safety (c : Certificate) (m : Model) (i : Invariant) : Except Error (List Constraint) :=
  m.automaton.rejecting.mapM (fun q => do
    let state := toString q
    let conclusion := Inequality.make (← c.safe.family.get state) .ge c.parameters.zero
    let premise ← within m i state
    Constraint.imply c.names premise (← Formula.conjoin (.ofInequalities [conclusion])))

def nonNegativity (c : Certificate) (m : Model) (i : Invariant) : Except Error (List Constraint) :=
  c.live.family.equations.mapM (fun (state, live) => do
    let premise ← within m i state
    let conclusion := Inequality.make live .ge c.parameters.zero
    Constraint.imply c.names premise (← Formula.conjoin (.ofInequality conclusion)))

def onConstants (left : Equation) (relation : Relation) (right : Equation) : Except Error Constraint := do
  let f ← Formula.join (.ofInequality (Inequality.make left relation right)) .absent .missing
  return .constant f

def variableBounds (c : Certificate) : Except Error (List Constraint) := do
  let v := c.parameters
  return [
    ← onConstants v.safeDecrease .ge v.almostZero,
    ← onConstants v.liveDecrease .ge v.almostZero,
    ← onConstants v.level .le v.zero,
    ← onConstants v.liveStep .ge v.almostZero,
    ← onConstants v.levelDecrease .le v.levelDecreaseBound]

def limitEquation (v : Value) : Except Error (Option Equation) :=
  if v.isNull then .ok none else (Equation.ofText v.toText).map some

def actionLimits (c : Certificate) (m : Model) (p : DecomposedPolicy) : Except Error (List Constraint) := do
  let lower ← limitEquation (p.limit "min")
  let upper ← limitEquation (p.limit "max")
  let bounds (action : Equation) : List Inequality :=
    (lower.map (Inequality.make action .ge)).toList ++ (upper.map (Inequality.make action .le)).toList
  let bounded := (p.policies.flatMap Policy.transitions).map bounds
  (bounded.filter (fun is => !is.isEmpty)).mapM (fun is => do
    let premise ← Formula.conjoin (.ofInequalities m.space)
    Constraint.imply c.names premise (← Formula.conjoin (.ofInequalities is)))

/-! ## Conditions on steps -/

/-- What every transition of a state has to do to the safety template: decrease it in expectation,
and, at either end of the disturbance, leave its fall between the offset and the step bound. -/
def safeSteps (c : Certificate) (m : Model) (p : DecomposedPolicy) (piece : Piece) (s : State) :
    Except Error (List Formula) := do
  let next := piece.nextUnder (← p.act s.isAccepting)
  let v := c.parameters
  let current ← c.safe.family.get (toString s.id)
  let targets ← s.transitions.mapM (fun t => c.safe.family.get (toString t.destination))
  let _ ← m.noise.expectations Noise.usualOrder
  let _ ← m.noise.bounds
  (targets.map (fun e => e.after next)).mapM (fun target => do
    let expected ← m.noise.expect target
    let decrease := Inequality.make ((current.sub v.safeDecrease).sub expected) .ge v.zero
    let lower := current.sub (v.safeOffset.add (← m.noise.atLower target))
    let upper := current.sub (v.safeOffset.add (← m.noise.atUpper target))
    Formula.conjoin (.ofInequality decrease) (.ofInequalities [
      .make lower .ge v.zero, .make upper .ge v.zero,
      .make lower .le v.stepBound, .make upper .le v.stepBound]))

def stepPremise (c : Certificate) (m : Model) (i : Invariant) (piece : Piece) (s : State)
    (t : Transition) : Except Error Formula := do
  let state := toString s.id
  let safe := Inequality.make (← c.safe.family.get state) .le c.parameters.zero
  let held ← i.holdsAt state
  Formula.conjoin (.ofInequalities (m.space ++ piece.condition))
    (.one (m.guarded t (.ofInequalities [safe, held])))

/-- The conditions on the transitions of a state, where `live` compares the liveness template of
the state with its expectation after the step. -/
def steps (c : Certificate) (m : Model) (i : Invariant) (p : DecomposedPolicy)
    (live : Equation → Equation → Inequality) (piece : Piece) (s : State) : Except Error (List Constraint) := do
  let safe ← c.safeSteps m p piece s
  (s.transitions.zip safe).mapM (fun (t, safe) => do
    let premise ← c.stepPremise m i piece s t
    let next := piece.nextUnder (← p.act s.isAccepting)
    let current ← c.live.family.get (toString s.id)
    let target ← c.live.family.get (toString t.destination)
    let expected ← m.noise.expect (target.after next)
    let conclusion ← Formula.conjoin (.one safe) (.ofInequality (live current expected))
    Constraint.imply c.names premise conclusion)

/-- Outside of the acceptance sets the liveness template decreases in expectation. -/
def decrease (c : Certificate) (m : Model) (i : Invariant) (p : DecomposedPolicy) :
    Except Error (List Constraint) :=
  let v := c.parameters
  m.forEachStep (fun s => !s.hasSignature && !s.isRejecting)
    (c.steps m i p (fun current expected => .make ((current.sub v.liveDecrease).sub expected) .ge v.zero))

/-- In the acceptance sets the liveness template rises by a bounded amount in expectation. -/
def increase (c : Certificate) (m : Model) (i : Invariant) (p : DecomposedPolicy) :
    Except Error (List Constraint) :=
  let v := c.parameters
  m.forEachStep State.hasSignature
    (c.steps m i p (fun current expected => .make expected .le (current.add v.liveStep)))

/-- The policy that acts in a state when the policies are told apart by their goals only. -/
def actingPolicy (p : DecomposedPolicy) (s : State) : Except Error (List (String × Equation)) := do
  if p.isIdle then return []
  let policy ← p.get (if s.isAccepting then .buchi else .reach)
  return policy.call

/-- The fall of the liveness template in a step, less the offset, lies between zero and the bound
of its rise, whatever the disturbance is. -/
def difference (c : Certificate) (m : Model) (i : Invariant) (p : DecomposedPolicy) :
    Except Error (List Constraint) := do
  let v := c.parameters
  let names := c.names ++ (← m.noise.names)
  let noise ← m.noise.inequalities
  m.forEachStep (fun _ => true) (fun piece s => do
    let state := toString s.id
    let safe ← c.safe.family.get state
    let next := piece.nextUnder (← actingPolicy p s)
    s.transitions.mapM (fun t => do
      let held ← i.holdsAt state
      let guarded := m.guarded t (.ofInequalities [held, .make safe .le v.zero])
      let premise ← Formula.conjoin
        (.list ((m.space ++ noise ++ piece.condition).map .inequality ++ [guarded]))
      let current ← c.live.family.get state
      let target ← c.live.family.get (toString t.destination)
      let fall := (current.sub v.safeOffset).sub (← Equation.ofText (target.after next))
      let conclusion ← Formula.conjoin
        (.ofInequalities [.make fall .ge v.zero, .make fall .le v.liveStep])
      Constraint.imply names premise conclusion))

end Supermartingale.Certificate
