import Bytewire.Read.Query

/-! Reading programs: queries in sequence, each next step chosen by the answers so far and by the
bytes that parts have used up. A program ends at its first fault. -/
namespace Bytewire.Read

inductive Program : Type → Type 1 where
  | done {α : Type} (a : α) : Program α
  | ask (q : Query) : Program q.Result
  | fail {α : Type} (e : Fault) : Program α
  | andThen {α β : Type} (p : Program α) (k : α → Program β) : Program β
  | container {α : Type} (p : Program α) : Program α
  | capture {α : Type} (p : Program α) : Program (α × Bytes)

namespace Program
variable {α β κ ν : Type}

instance : Monad Program where
  pure := .done
  bind := .andThen

def run (src : Source) : {α : Type} → Program α → Attempt Session α
  | _, done a => pure a
  | _, ask q => q.run src
  | _, fail e => .fail e
  | _, andThen p k => do (k (← p.run src)).run src
  | _, container p => Session.container (p.run src)
  | _, capture p => Session.capture (p.run src)

section
variable (src : Source)

@[simp] theorem run_pure (a : α) : (pure a : Program α).run src = pure a := rfl

@[simp] theorem run_bind (p : Program α) (k : α → Program β) :
    (p >>= k).run src = p.run src >>= fun a => (k a).run src := rfl

@[simp] theorem run_ask (q : Query) : (ask q).run src = q.run src := rfl

@[simp] theorem run_fail (e : Fault) : (fail e : Program α).run src = Attempt.fail e := rfl

@[simp] theorem run_container (p : Program α) :
    (container p).run src = Session.container (p.run src) := rfl

@[simp] theorem run_capture (p : Program α) :
    (capture p).run src = Session.capture (p.run src) := rfl

end

def outcome (src : Source) (p : Program α) : Except Fault α :=
  (p.run src (.start src.limits src.input)).1

def times (p : Program α) : Nat → Program (List α)
  | 0 => pure []
  | n+1 => do
    let a ← p
    return a :: (← times p n)

def optional (p : Program α) : Program (Option α) := do
  if ← ask .tag then return some (← p) else return none

def choice (arm : UInt32 → Program α) : Program (UInt32 × α) := container do
  let i ← ask .variant
  return (i, ← arm i)

def sequence (p : Program α) : Program (List α) := container do
  times p (← ask .length)

def inOrder (previous : Option Bytes) (current : Bytes) : Program Unit :=
  match previous with
  | some p => ask (.keys p current)
  | none => pure ()

def entries (key : Program κ) (value : Program ν) : Option Bytes → Nat → Program (List (κ × ν))
  | _, 0 => pure []
  | previous, n+1 => do
    let (k, current) ← capture key
    inOrder previous current
    let v ← value
    return (k, v) :: (← entries key value (some current) n)

def map (key : Program κ) (value : Program ν) : Program (List (κ × ν)) := container do
  entries key value none (← ask .length)

end Program
end Bytewire.Read
