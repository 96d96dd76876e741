import Rearrange.Simplify
import Rearrange.Solve.Error
import Rearrange.Solve.JobQueue

namespace Rearrange

namespace Solve

/-- The other side of an equation whose one side is the target, unless the target occurs there
too. -/
def isolated? (target : String) (side other : Expr) : Option Expr :=
  if side.isVar target && !other.mentions target then some other else none

/-- The equations that undo the outermost operation of `side` in `side = other`. -/
def rewrite (target : String) (side other : Expr) : List Job :=
  match side with
  | .neg e => [⟨e, -other⟩]
  | .bin .add l r => [⟨l, other - r⟩, ⟨r, other - l⟩]
  | .bin .sub l r => [⟨l, other + r⟩, ⟨-r, other - l⟩]
  | .bin .mul l r => [⟨l, other / r⟩, ⟨r, other / l⟩]
  | .bin .div l r => [⟨l, other * r⟩, ⟨.const 1 / r, other / l⟩]
  | .const c => [⟨.const 0, other - .const c⟩]
  | .var n => if n = target then [] else [⟨.const 0, other - .var n⟩]

structure Options where
  budget : Nat := 100
  rules : RuleSet := .baseline
  rejectNonFinite : Bool := false
deriving DecidableEq

end Solve

def Job.simplify (rules : RuleSet) (j : Job) : Job := ⟨j.lhs.simplify rules, j.rhs.simplify rules⟩

def Job.value? (target : String) (j : Job) : Option Expr :=
  Solve.isolated? target j.lhs j.rhs <|> Solve.isolated? target j.rhs j.lhs

def Job.successors (target : String) (rules : RuleSet) (j : Job) : List Job :=
  (Solve.rewrite target j.lhs j.rhs ++ Solve.rewrite target j.rhs j.lhs).map (Job.simplify rules)

inductive SearchEvent where
  | started (target : String) (job : Job)
  | exploring (index : Nat) (job : Job)
  | duplicate (job : Job)
  | isolated (target : String) (explored : Nat) (value : Expr)
  | gaveUp (target : String) (explored admitted pending : Nat)
deriving DecidableEq

namespace SearchEvent

def level : SearchEvent → String
  | started .. | isolated .. | gaveUp .. => "DEBUG"
  | exploring .. | duplicate .. => "TRACE"

def text : SearchEvent → String
  | started target job => "solving for `" ++ target ++ "` in " ++ job.render
  | exploring index job => "exploring job " ++ toString index ++ ": " ++ job.render
  | duplicate job => "skipping duplicate job: " ++ job.render
  | isolated target explored value =>
    "isolated `" ++ target ++ "` after " ++ toString explored ++ " jobs: " ++ value.render
  | gaveUp target explored admitted pending =>
    "gave up isolating `" ++ target ++ "` after " ++ toString explored ++ " jobs (" ++
      toString admitted ++ " admitted, " ++ toString pending ++ " pending)"

end SearchEvent

structure Solution where
  value : Expr
  derivation : List Job
  explored : Nat
deriving DecidableEq

/-- A search under way. Events are listed latest first. -/
structure Search where
  queue : JobQueue
  explored : Nat
  events : List SearchEvent

namespace Search

def offer (parent : Nat) (s : Search) (j : Job) : Search :=
  if s.queue.hasSeen j then { s with events := .duplicate j :: s.events }
  else { s with queue := (s.queue.push j (some parent)).2 }

def start (target : String) (rules : RuleSet) (lhs rhs : Expr) : Search :=
  let j := (Job.mk lhs rhs).simplify rules
  ⟨(JobQueue.empty.push j none).2, 0, [.started target j]⟩

def giveUp (target : String) (s : Search) : Except SolveError Solution × List SearchEvent :=
  (.error (.unsolvable target s.explored),
    .gaveUp target s.explored s.queue.admitted s.queue.pending :: s.events)

def finish (target : String) (rejectNonFinite : Bool) (index : Nat) (value : Expr) (s : Search) :
    Except SolveError Solution × List SearchEvent :=
  let result :=
    if rejectNonFinite && !value.isFinite then .error (.nonFinite target value)
    else .ok ⟨value, (s.queue.derivation? index).getD [], s.explored⟩
  (result, .isolated target s.explored value :: s.events)

def run (target : String) (rules : RuleSet) (rejectNonFinite : Bool) :
    (budget : Nat) → Search → Except SolveError Solution × List SearchEvent
  | 0, s => s.giveUp target
  | budget + 1, s =>
    match s.queue.pop with
    | none => s.giveUp target
    | some (index, job, queue) =>
      let s : Search := ⟨queue, s.explored + 1, .exploring index job :: s.events⟩
      match job.value? target with
      | some value => s.finish target rejectNonFinite index value
      | none =>
        run target rules rejectNonFinite budget
          ((job.successors target rules).foldl (offer index) s)

end Search

/-- Isolates `target` in `lhs = rhs`. Gives the outcome and the events in order. -/
def solveTraced (target : String) (lhs rhs : Expr) (options : Solve.Options := {}) :
    Except SolveError Solution × List SearchEvent :=
  let (outcome, events) :=
    Search.run target options.rules options.rejectNonFinite options.budget
      (.start target options.rules lhs rhs)
  (outcome, events.reverse)

def solve (target : String) (lhs rhs : Expr) (options : Solve.Options := {}) :
    Except SolveError Solution := (solveTraced target lhs rhs options).1

end Rearrange
