import Bytewire.Read.Program
import Bytewire.Write.Script

/-! Runs with a count of what is open and a log of every moment. Watching changes nothing: it does
what the session does and counts beside it. A single entry is one that no container makes, and it
is open until a leaving takes one back. -/
namespace Bytewire

structure Moment where
  session : Session
  containers : Nat
  single : Nat
deriving DecidableEq, Repr

def Moment.opened (m : Moment) : Nat := m.containers + m.single

inductive Act where
  | step
  | enter
  | leave
  | opening
  | closing
  | returned (called : Moment)
deriving DecidableEq, Repr

/-- The present moment, and before it every act with the moment it began at. -/
structure Watch where
  now : Moment
  log : List (Act × Moment)
deriving DecidableEq, Repr

namespace Watch
variable {α : Type}

def start (s : Session) : Watch := ⟨⟨s, 0, 0⟩, []⟩

def moments (w : Watch) : List Moment := w.log.map Prod.snd ++ [w.now]

/-- Nothing is left unless a single entry is open, wherever that was made. -/
def Paired (w : Watch) : Prop := ∀ e ∈ w.log, e.1 = .leave → 0 < e.2.single

instance (w : Watch) : Decidable w.Paired :=
  inferInstanceAs (Decidable (∀ e ∈ w.log, e.1 = .leave → 0 < e.2.single))

def Plain (w : Watch) : Prop := ∀ e ∈ w.log, e.1 ≠ .enter ∧ e.1 ≠ .leave

instance (w : Watch) : Decidable w.Plain :=
  inferInstanceAs (Decidable (∀ e ∈ w.log, e.1 ≠ .enter ∧ e.1 ≠ .leave))

/-- The books of a run under a limit. If leaving is paired, at every moment the budget and what is
open make up the limit, and an entry, a container's too, is refused exactly when as many are open as
the limit allows, which changes nothing. If nothing is entered by itself, every container that was
called comes back with the budget it was called with. -/
structure Accounted (limit : Nat) (w : Watch) : Prop where
  balanced : w.Paired → ∀ m ∈ w.moments, m.session.budget + m.opened = limit ∧ m.opened ≤ limit
  enter : w.Paired → ∀ m ∈ w.moments, Session.enter m.session =
    if m.opened = limit then (.error .depthExceeded, m.session)
    else (.ok (), ⟨m.session.budget - 1, m.session.bytes⟩)
  container : w.Paired → ∀ m ∈ w.moments, ∀ {α : Type} (body : Attempt Session α),
    Session.container body m.session =
      if m.opened = limit then (.error .depthExceeded, m.session)
      else ((body ⟨m.session.budget - 1, m.session.bytes⟩).1,
        (body ⟨m.session.budget - 1, m.session.bytes⟩).2.restore)
  returned : w.Plain → ∀ called m, (.returned called, m) ∈ w.log →
    m.session.budget = called.session.budget

def move (a : Act) (m : Moment) (w : Watch) : Watch := ⟨m, w.log ++ [(a, w.now)]⟩

def step (x : Attempt Session α) : Attempt Watch α := fun w =>
  let r := x w.now.session
  (r.1, w.move .step { w.now with session := r.2 })

def entry (a : Act) (count : Moment → Moment) : Attempt Watch Unit := fun w =>
  match Session.enter w.now.session with
  | (.ok _, s) => (.ok (), w.move a (count { w.now with session := s }))
  | (.error e, s) => (.error e, w.move a { w.now with session := s })

def enter : Attempt Watch Unit := entry .enter fun m => { m with single := m.single + 1 }

def leave : Attempt Watch Unit := fun w =>
  (.ok (), w.move .leave ⟨w.now.session.restore, w.now.containers, w.now.single - 1⟩)

def opening : Attempt Watch Unit :=
  entry .opening fun m => { m with containers := m.containers + 1 }

def close (w : Watch) : Watch :=
  w.move .closing ⟨w.now.session.restore, w.now.containers - 1, w.now.single⟩

def container (body : Attempt Watch α) : Attempt Watch α := fun w =>
  let inside : Attempt Watch α := do
    opening
    body.after close
  let r := inside w
  (r.1, r.2.move (.returned w.now) r.2.now)

def capture (x : Attempt Watch α) : Attempt Watch (α × Bytes) := do
  let before ← .get
  let a ← x
  let rest ← .get
  let read := before.now.session.bytes
  pure (a, read.take (read.length - rest.now.session.bytes.length))

def perform (xs : List (Attempt Watch α)) (w : Watch) : Watch := xs.foldl (fun w x => (x w).2) w

end Watch

namespace Read
variable (src : Source)

def Query.watch : (q : Query) → Attempt Watch q.Result
  | .enter => Watch.enter
  | .leave => Watch.leave
  | q => Watch.step (q.run src)

def Program.watch : {α : Type} → Program α → Attempt Watch α
  | _, done a => pure a
  | _, ask q => q.watch src
  | _, fail e => .fail e
  | _, andThen p k => do (k (← p.watch)).watch
  | _, container p => Watch.container p.watch
  | _, capture p => Watch.capture p.watch

end Read

namespace Write
variable (l : Layout)

def Command.watch : Command → Attempt Watch Unit
  | .enter => Watch.enter
  | .leave => Watch.leave
  | c => Watch.step (c.run l)

def watchOffsets : List (Attempt Watch Unit) → Attempt Watch (List Nat)
  | [] => pure []
  | entry :: entries => do
    let w ← .get
    entry
    return w.now.session.bytes.length :: (← watchOffsets entries)

def watchMap (entries : List (Attempt Watch Unit)) : Attempt Watch Unit := Watch.container do
  Watch.step (length l entries.length)
  (Command.sort (← watchOffsets entries)).watch l

def watchChain : Nat → Attempt Watch Unit
  | 0 => pure ()
  | n+1 => Watch.container do
    Watch.step (word (BitVec.ofNat Width.w16.bits n))
    Watch.step (length l (if n = 0 then 0 else 1))
    watchChain n

mutual
def Script.watch : Script → Attempt Watch Unit
  | .command c => c.watch l
  | .container body => Watch.container (watchAll body)
  | .map entries => watchMap l (watchEach entries)
  | .chain n => watchChain l n
def watchAll : List Script → Attempt Watch Unit
  | [] => pure ()
  | x :: xs => do x.watch; watchAll xs
def watchEach : List (List Script) → List (Attempt Watch Unit)
  | [] => []
  | e :: es => watchAll e :: watchEach es
end

end Write
end Bytewire
