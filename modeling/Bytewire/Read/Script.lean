import Bytewire.Read.Program

/-! Scripts of queries with containers, options, choices, sequences, maps and trees, and the report
of a run: what each step answered and where it left the reader. A list at the outermost level goes
on after a failed step, a body stops there. -/
namespace Bytewire.Read
open Session

inductive Script where
  | query (q : Query)
  | container (body : List Script)
  | option (body : List Script)
  /-- The arms by index; an index beyond them selects the last. -/
  | choice (arms : List (List Script))
  | sequence (item : List Script)
  | map (key value : List Script)
  | tree

namespace Program

/-- A tree no deeper than the bound. Each node uses up bytes before the nodes within, so a bound of
as many levels as there are bytes is none (`tree_run`). -/
def tree (bound : Nat) : Program Unit := container do
  let _ ← ask (.uint .w16)
  let n ← ask .length
  match bound with
  | 0 => pure ()
  | b+1 => do
    let _ ← times (tree b) n

end Program

mutual
def Script.program (bound : Nat) : Script → Program Answer
  | .query q => do return q.answer (← .ask q)
  | .container body => do
    let _ ← Program.container (all bound body)
    return .nothing
  | .option body => do return .truth (← Program.optional (all bound body)).isSome
  | .choice arms => do return .number (← Program.choice fun i => arm bound arms i.toNat).1.toNat
  | .sequence item => do return .number (← Program.sequence (all bound item)).length
  | .map key value => do return .number (← Program.map (all bound key) (all bound value)).length
  | .tree => do
    let _ ← Program.tree bound
    return .nothing
def all (bound : Nat) : List Script → Program Unit
  | [] => pure ()
  | x :: xs => do
    let _ ← x.program bound
    all bound xs
def arm (bound : Nat) : List (List Script) → Nat → Program Unit
  | [], _ => pure ()
  | [a], _ => all bound a
  | a :: _, 0 => all bound a
  | _ :: a :: as, i+1 => arm bound (a :: as) i
end

variable (src : Source)

def Script.run (x : Script) : Attempt Session Answer := (x.program src.input.length).run src

structure Node where
  depth : Nat
  value : Word .w16
  count : Nat
deriving DecidableEq, Repr

inductive Detail (α : Type) where
  | none
  | steps (l : List α)
  | items (l : List (List α))
  | nodes (l : List Node)

structure Step where
  offset : Nat
  outcome : Except Fault Answer
  detail : Detail Step

def report (x : Script) (detail : Detail Step) (s : Session) : Step :=
  let (outcome, t) := x.run src s
  { offset := offset src t, outcome, detail }

def following {α β : Type} (p : Program α) (s : Session) (k : α → Session → List β) : List β :=
  match p.run src s with
  | (.ok a, t) => k a t
  | (.error _, _) => []

def rounds {β : Type} (p : Program Unit) (look : Session → β) : Nat → Session → List β
  | 0, _ => []
  | n+1, s => look s :: following src p s fun _ t => rounds p look n t

def entryRounds {β : Type} (key value : Program Unit) (lookKey lookValue : Session → List β) :
    Option Bytes → Nat → Session → List (List β)
  | _, 0, _ => []
  | previous, n+1, s =>
    let checked : Program Bytes := do
      let (_, current) ← Program.capture key
      Program.inOrder previous current
      return current
    match checked.run src s with
    | (.error _, _) => [lookKey s]
    | (.ok current, t) =>
      (lookKey s ++ lookValue t) ::
        following src value t fun _ u => entryRounds key value lookKey lookValue (some current) n u

def treeNodes (depth : Nat) : Nat → Session → List Node
  | bound, s =>
    following src (.ask .enter) s fun _ s =>
    following src (.ask (.uint .w16)) s fun value s =>
    following src (.ask .length) s fun count s =>
      ⟨depth, value, count⟩ :: match bound with
        | 0 => []
        | b+1 => (rounds src (.tree b) (treeNodes (depth + 1) b) count s).flatten

mutual
def Script.trace : Script → Session → Step
  | .query q, s => report src (.query q) .none s
  | .container body, s =>
    report src (.container body)
      (.steps (following src (.ask .enter) s fun _ t => traceAll body t)) s
  | .option body, s =>
    report src (.option body)
      (.steps (following src (.ask .tag) s fun present t =>
        if present then traceAll body t else [])) s
  | .choice arms, s =>
    report src (.choice arms)
      (.steps (following src (.ask .enter) s fun _ t =>
        following src (.ask .variant) t fun i u => traceArm arms i.toNat u)) s
  | .sequence item, s =>
    report src (.sequence item)
      (.items (following src (.ask .enter) s fun _ t =>
        following src (.ask .length) t fun n u =>
          rounds src (all src.input.length item) (traceAll item) n u)) s
  | .map key value, s =>
    report src (.map key value)
      (.items (following src (.ask .enter) s fun _ t =>
        following src (.ask .length) t fun n u =>
          entryRounds src (all src.input.length key) (all src.input.length value)
            (traceAll key) (traceAll value) none n u)) s
  | .tree, s => report src .tree (.nodes (treeNodes src 0 src.input.length s)) s
def traceAll : List Script → Session → List Step
  | [], _ => []
  | x :: xs, s => x.trace s :: following src (x.program src.input.length) s fun _ t => traceAll xs t
def traceArm : List (List Script) → Nat → Session → List Step
  | [], _, _ => []
  | [a], _, s => traceAll a s
  | a :: _, 0, s => traceAll a s
  | _ :: a :: as, i+1, s => traceArm (a :: as) i s
end

def perform : List Script → Session → List Step × Session
  | [], s => ([], s)
  | x :: xs, s =>
    let (steps, t) := perform xs (x.run src s).2
    (x.trace src s :: steps, t)

end Bytewire.Read
