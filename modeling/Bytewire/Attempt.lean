import Bytewire.Fault

/-! Computations over a state that may fault. A fault keeps the state it was met in, so what a
failed step has already done to the state stays visible. -/
namespace Bytewire

def Attempt (σ α : Type) : Type := σ → Except Fault α × σ

namespace Attempt
variable {σ α β : Type}

instance : Monad (Attempt σ) where
  pure a := fun s => (.ok a, s)
  bind x f := fun s =>
    match x s with
    | (.ok a, t) => f a t
    | (.error e, t) => (.error e, t)

def fail (e : Fault) : Attempt σ α := fun s => (.error e, s)

def get : Attempt σ σ := fun s => (.ok s, s)

def set (s : σ) : Attempt σ Unit := fun _ => (.ok (), s)

def lift (r : Except Fault α) : Attempt σ α := fun s => (r, s)

def after (x : Attempt σ α) (f : σ → σ) : Attempt σ α := fun s =>
  let r := x s
  (r.1, f r.2)

theorem pure_run (a : α) (s : σ) : (pure a : Attempt σ α) s = (.ok a, s) := rfl

theorem get_run (s : σ) : (get : Attempt σ σ) s = (.ok s, s) := rfl

theorem bind_run (x : Attempt σ α) (f : α → Attempt σ β) (s : σ) :
    (x >>= f) s = match x s with
      | (.ok a, t) => f a t
      | (.error e, t) => (.error e, t) := rfl

theorem bind_ok {x : Attempt σ α} {s t : σ} {a : α} (h : x s = (.ok a, t))
    (f : α → Attempt σ β) : (x >>= f) s = f a t := by
  rw [bind_run, h]

theorem bind_error {x : Attempt σ α} {s t : σ} {e : Fault} (h : x s = (.error e, t))
    (f : α → Attempt σ β) : (x >>= f) s = (.error e, t) := by
  rw [bind_run, h]

/-- What follows need agree only where the first step leads. -/
theorem bind_congr {x y : Attempt σ α} {f g : α → Attempt σ β} {s : σ} (hx : x s = y s)
    (h : ∀ a t, x s = (.ok a, t) → f a t = g a t) : (x >>= f) s = (y >>= g) s := by
  rw [bind_run, bind_run, ← hx]
  cases hr : x s with
  | mk r t =>
    cases r with
    | ok a => exact h a t hr
    | error e => rfl

theorem bind_pure_eq {x : Attempt σ α} {s t : σ} {r : Except Fault α} (h : x s = (r, t))
    (f : α → β) : (x >>= fun a => pure (f a)) s = (r.map f, t) := by
  rw [bind_run, h]
  cases r <;> rfl

/-- What holds between the states before and after each of two steps holds from first to last. -/
theorem bind_state (R : σ → σ → Prop) (htrans : ∀ {s t u}, R s t → R t u → R s u)
    {x : Attempt σ α} {f : α → Attempt σ β} (hx : ∀ s, R s (x s).2) (hf : ∀ a s, R s (f a s).2)
    (s : σ) : R s ((x >>= f) s).2 := by
  have hs := hx s
  rw [bind_run]
  cases hr : x s with
  | mk r t =>
    rw [hr] at hs
    cases r with
    | ok a => exact htrans hs (hf a t)
    | error e => exact hs

theorem eq_ok_of_bind {x : Attempt σ α} {f : α → Attempt σ β} {s u : σ} {b : β}
    (h : (x >>= f) s = (.ok b, u)) : ∃ a t, x s = (.ok a, t) ∧ f a t = (.ok b, u) := by
  rw [bind_run] at h
  cases hx : x s with
  | mk r t =>
    rw [hx] at h
    cases r with
    | ok a => exact ⟨a, t, rfl, h⟩
    | error e => cases h

theorem eq_error_of_bind {x : Attempt σ α} {f : α → Attempt σ β} {s u : σ} {e : Fault}
    (h : (x >>= f) s = (.error e, u)) :
    x s = (.error e, u) ∨ ∃ a t, x s = (.ok a, t) ∧ f a t = (.error e, u) := by
  rw [bind_run] at h
  cases hx : x s with
  | mk r t =>
    rw [hx] at h
    cases r with
    | ok a => exact .inr ⟨a, t, rfl, h⟩
    | error e =>
      cases h
      exact .inl rfl

instance : LawfulMonad (Attempt σ) := LawfulMonad.mk' _
  (fun x => by
    funext s
    change (x >>= pure ∘ id) s = x s
    rw [bind_run]
    rcases x s with ⟨_ | _, _⟩ <;> rfl)
  (fun _ _ => rfl)
  (fun x f g => by
    funext s
    simp only [bind_run]
    rcases x s with ⟨_ | _, _⟩ <;> rfl)

end Attempt
end Bytewire
