import Bytewire.Bytes.Buffer

/-! Taking bytes from the front of what is not yet read. A taking that asks for more than there is
takes nothing. -/
namespace Bytewire.Unread

def require (n : Nat) (b : Bytes) : Except Fault Unit :=
  if b.length < n then .error .endOfInput else .ok ()

def take (n : Nat) : Attempt Bytes Bytes := do
  let b ← .get
  .lift (require n b)
  .set (b.drop n)
  pure (b.take n)

theorem take_eq (n : Nat) (b : Bytes) :
    take n b = if b.length < n then (.error .endOfInput, b) else (.ok (b.take n), b.drop n) := by
  by_cases h : b.length < n
  · simp only [take, require, Attempt.bind_run, Attempt.get, Attempt.lift, h, if_true]
  · simp only [take, require, Attempt.bind_run, Attempt.get, Attempt.lift, h, if_false]
    rfl

theorem take_append {n : Nat} {b t : Bytes} (h : b.length = n) :
    take n (b ++ t) = (.ok b, t) := by
  subst h
  simp [take_eq]

end Bytewire.Unread
