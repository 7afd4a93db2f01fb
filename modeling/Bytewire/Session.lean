import Bytewire.Limits

/-! The state of one pass over bytes, writing or reading: how many more containers may be opened,
and the bytes, which are those written so far or those not yet read. -/
namespace Bytewire

structure Session where
  budget : Nat
  bytes : Bytes
deriving DecidableEq, Repr

namespace Session
variable {α : Type}

def start (l : Limits) (b : Bytes) : Session := ⟨l.depth, b⟩

def onBytes (x : Attempt Bytes α) : Attempt Session α := fun s =>
  let r := x s.bytes
  (r.1, { s with bytes := r.2 })

def emit (new : Bytes) : Attempt Session Unit := fun s =>
  (.ok (), { s with bytes := s.bytes ++ new })

def enter : Attempt Session Unit := fun s =>
  if s.budget = 0 then (.error .depthExceeded, s) else (.ok (), { s with budget := s.budget - 1 })

/-- Gives one container back; the budget stops at the largest word. -/
def restore (s : Session) : Session := { s with budget := min (s.budget + 1) maxWord }

def leave : Attempt Session Unit := fun s => (.ok (), s.restore)

def container (body : Attempt Session α) : Attempt Session α := do
  enter
  body.after restore

def capture (x : Attempt Session α) : Attempt Session (α × Bytes) := do
  let before ← .get
  let a ← x
  let rest ← .get
  pure (a, before.bytes.take (before.bytes.length - rest.bytes.length))

theorem container_run (body : Attempt Session α) (s : Session) :
    container body s = if s.budget = 0 then (.error .depthExceeded, s) else
      ((body { s with budget := s.budget - 1 }).1,
        (body { s with budget := s.budget - 1 }).2.restore) := by
  by_cases h : s.budget = 0
  · simp only [container, enter, Attempt.bind_run, h, if_true]
  · simp only [container, enter, Attempt.bind_run, h, if_false]
    rfl

theorem container_zero (body : Attempt Session α) (b : Bytes) :
    container body ⟨0, b⟩ = (.error .depthExceeded, ⟨0, b⟩) := by
  rw [container_run, if_pos rfl]

theorem container_succ (body : Attempt Session α) (n : Nat) (b : Bytes) :
    container body ⟨n + 1, b⟩ = ((body ⟨n, b⟩).1, (body ⟨n, b⟩).2.restore) := by
  rw [container_run, if_neg (Nat.succ_ne_zero n)]
  rfl

theorem onBytes_bind {β : Type} (x : Attempt Bytes α) (f : α → Attempt Bytes β) :
    onBytes (x >>= f) = onBytes x >>= fun a => onBytes (f a) := by
  funext s
  simp only [onBytes, Attempt.bind_run]
  cases x s.bytes with
  | mk r c => cases r <;> rfl

theorem onBytes_eq {x : Attempt Bytes α} {r : Except Fault α} {n : Nat} {b c : Bytes}
    (h : x b = (r, c)) : onBytes x ⟨n, b⟩ = (r, ⟨n, c⟩) := by
  simp only [onBytes, h]

theorem eq_of_onBytes {x : Attempt Bytes α} {r : Except Fault α} {n : Nat} {b : Bytes}
    {s : Session} (h : onBytes x ⟨n, b⟩ = (r, s)) : x b = (r, s.bytes) ∧ s.budget = n := by
  cases h
  exact ⟨rfl, rfl⟩

theorem eq_ok_of_container {body : Attempt Session α} {a : α} {n : Nat} {b : Bytes} {s : Session}
    (h : container body ⟨n, b⟩ = (.ok a, s)) :
    ∃ m t, n = m + 1 ∧ body ⟨m, b⟩ = (.ok a, t) ∧ s = t.restore := by
  cases n with
  | zero =>
    rw [container_zero] at h
    cases h
  | succ m =>
    rw [container_succ] at h
    cases hr : body ⟨m, b⟩ with
    | mk r t =>
      rw [hr] at h
      cases h
      exact ⟨m, t, rfl, hr, rfl⟩

theorem capture_eq {x : Attempt Session α} {a : α} {n m : Nat} {d t : Bytes}
    (h : x ⟨n, d ++ t⟩ = (.ok a, ⟨m, t⟩)) : capture x ⟨n, d ++ t⟩ = (.ok (a, d), ⟨m, t⟩) := by
  rw [capture, Attempt.bind_ok (Attempt.get_run _), Attempt.bind_ok h,
    Attempt.bind_ok (Attempt.get_run _), Attempt.pure_run]
  simp

theorem eq_ok_of_capture {x : Attempt Session α} {a : α} {d : Bytes} {s t : Session}
    (h : capture x s = (.ok (a, d), t)) :
    x s = (.ok a, t) ∧ d = s.bytes.take (s.bytes.length - t.bytes.length) := by
  obtain ⟨before, _, hget, h⟩ := Attempt.eq_ok_of_bind h
  cases hget
  obtain ⟨v, u, hv, h⟩ := Attempt.eq_ok_of_bind h
  cases h
  exact ⟨hv, rfl⟩

/-- A body that gives back every container it opens can be run one container deeper. -/
theorem container_eq {body : Attempt Session α} {r : Except Fault α} {n : Nat} {b c : Bytes}
    (hn : n < maxWord) (h : body ⟨n, b⟩ = (r, ⟨n, c⟩)) :
    container body ⟨n + 1, b⟩ = (r, ⟨n + 1, c⟩) := by
  rw [container_run, if_neg (Nat.succ_ne_zero n)]
  simp only [Nat.add_sub_cancel, h, restore, Nat.min_eq_left hn]

end Session
end Bytewire
