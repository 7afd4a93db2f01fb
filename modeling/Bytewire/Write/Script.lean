import Bytewire.Write.Command

/-! Scripts of commands with containers and maps, and the report of a run: what each step added and
how it ended. A list at the outermost level goes on after a failed step, a body stops there. -/
namespace Bytewire.Write
open Session

inductive Script where
  | command (c : Command)
  | container (body : List Script)
  | map (entries : List (List Script))
  | chain (n : Nat)

variable (l : Layout)

def offsets : List (Attempt Session Unit) → Attempt Session (List Nat)
  | [] => pure []
  | entry :: entries => do
    let s ← .get
    entry
    return s.bytes.length :: (← offsets entries)

def map (entries : List (Attempt Session Unit)) : Attempt Session Unit := container do
  length l entries.length
  (Command.sort (← offsets entries)).run l

def chain : Nat → Attempt Session Unit
  | 0 => pure ()
  | n+1 => container do
    word (BitVec.ofNat Width.w16.bits n)
    length l (if n = 0 then 0 else 1)
    chain n

mutual
def Script.run : Script → Attempt Session Unit
  | .command c => c.run l
  | .container body => container (runAll body)
  | .map entries => map l (runEach entries)
  | .chain n => chain l n
def runAll : List Script → Attempt Session Unit
  | [] => pure ()
  | x :: xs => do x.run; runAll xs
def runEach : List (List Script) → List (Attempt Session Unit)
  | [] => []
  | e :: es => runAll e :: runEach es
end

structure Step where
  offset : Nat
  new : Bytes
  fault : Option Fault
  inner : Option (List Step)
  buffer : Option Bytes

def faultOf {α : Type} : Except Fault α → Option Fault
  | .ok _ => none
  | .error e => some e

def Script.report (x : Script) (inner : Option (List Step)) (s : Session) : Step :=
  let (r, t) := x.run l s
  { offset := t.bytes.length
    new := t.bytes.drop s.bytes.length
    fault := faultOf r
    inner
    buffer := match x with
      | .command (.sort _) => some t.bytes
      | _ => none }

mutual
def Script.trace : Script → Session → Step
  | x@(.container body), s =>
    x.report l (some (match enter s with
      | (.ok _, t) => traceAll body t
      | (.error _, _) => [])) s
  | x, s => x.report l none s
def traceAll : List Script → Session → List Step
  | [], _ => []
  | x :: xs, s =>
    x.trace s :: match x.run l s with
      | (.ok _, t) => traceAll xs t
      | (.error _, _) => []
end

def perform : List Script → Session → List Step × Session
  | [], s => ([], s)
  | x :: xs, s =>
    let (steps, t) := perform xs (x.run l s).2
    (x.trace l s :: steps, t)

end Bytewire.Write
