import Bytewire.Proofs.Read.Steps
import Bytewire.Read.Local

/-! Readings that go by the bytes they use up and by nothing behind them. Every local query is of
this kind, and so is every program made of such queries. -/
namespace Bytewire

namespace Base128
variable {room n : Nat} {b c : Bytes}

theorem decode_ok (h : decode room b = (.ok n, c)) :
    ∃ d, b = d ++ c ∧ ∀ t, decode room (d ++ t) = (.ok n, t) := by
  induction b generalizing room n with
  | nil => cases h
  | cons x xs ih =>
    rw [decode] at h
    split at h
    · cases h
    · rename_i hroom
      split at h
      · rename_i hx
        cases h
        exact ⟨[x], rfl, fun t => by simp [decode, hroom, hx]⟩
      · rename_i hx
        cases hxs : decode (room - 7) xs with
        | mk r ys =>
          rw [hxs] at h
          cases r with
          | error e => cases h
          | ok m =>
            cases h
            obtain ⟨d, rfl, hd⟩ := ih hxs
            exact ⟨x :: d, rfl, fun t => by simp [decode, hroom, hx, hd]⟩

/-- A number is read in the same way from the bytes that it uses up alone. -/
theorem decode_used (h : decode room b = (.ok n, c)) :
    ∃ d, b = d ++ c ∧ decode room d = (.ok n, []) := by
  obtain ⟨d, hd, hdecode⟩ := decode_ok h
  exact ⟨d, hd, by simpa using hdecode []⟩

theorem decode_error {e : Fault} (h : decode room b = (.error e, c)) (he : e ≠ .endOfInput)
    (t : Bytes) : decode room (b ++ t) = (.error e, c ++ t) := by
  induction b generalizing room with
  | nil =>
    cases h
    exact absurd rfl he
  | cons x xs ih =>
    rw [decode] at h
    rw [List.cons_append, decode]
    split at h
    · rename_i hroom
      cases h
      rw [if_pos hroom]
    · rename_i hroom
      split at h
      · cases h
      · rename_i hx
        cases hxs : decode (room - 7) xs with
        | mk r ys =>
          rw [hxs] at h
          cases r with
          | ok m => cases h
          | error e =>
            cases h
            rw [if_neg hroom, if_neg hx, ih hxs]

end Base128

namespace Session
variable {α β : Type} {n m : Nat} {b c : Bytes} {a : α} {e : Fault}

/-- A success depends on the bytes used up and on none behind them, and a fault other than for
want of bytes stays what it is when there are more. -/
structure Forward (x : Attempt Session α) : Prop where
  ok : ∀ {n m b c a}, x ⟨n, b⟩ = (.ok a, ⟨m, c⟩) →
    ∃ d, b = d ++ c ∧ ∀ t, x ⟨n, d ++ t⟩ = (.ok a, ⟨m, t⟩)
  error : ∀ {n m b c e}, x ⟨n, b⟩ = (.error e, ⟨m, c⟩) → e ≠ .endOfInput →
    ∀ t, x ⟨n, b ++ t⟩ = (.error e, ⟨m, c ++ t⟩)

namespace Forward

theorem pure (a : α) : Forward (pure a) where
  ok h := by
    cases h
    exact ⟨[], rfl, fun t => rfl⟩
  error h := by cases h

theorem fail (e : Fault) : Forward (.fail e : Attempt Session α) where
  ok h := by cases h
  error h _ t := by
    cases h
    rfl

theorem bind {x : Attempt Session α} {f : α → Attempt Session β} (hx : Forward x)
    (hf : ∀ a, Forward (f a)) : Forward (x >>= f) where
  ok {n m b c a} h := by
    obtain ⟨v, s, hv, hf'⟩ := Attempt.eq_ok_of_bind h
    obtain ⟨d, rfl, hd⟩ := hx.ok hv
    obtain ⟨d', hd', hrest⟩ := (hf v).ok hf'
    refine ⟨d ++ d', by rw [hd', List.append_assoc], ?_⟩
    intro t
    rw [List.append_assoc, Attempt.bind_ok (hd (d' ++ t)), hrest]
  error {n m b c e} h he t := by
    rcases Attempt.eq_error_of_bind h with hv | ⟨v, s, hv, hf'⟩
    · exact Attempt.bind_error (hx.error hv he t) f
    · obtain ⟨d, rfl, hd⟩ := hx.ok hv
      rw [List.append_assoc, Attempt.bind_ok (hd (s.bytes ++ t))]
      exact (hf v).error hf' he t

theorem container {x : Attempt Session α} (hx : Forward x) : Forward (container x) where
  ok {n m b c a} h := by
    obtain ⟨k, s, rfl, hr, hs⟩ := eq_ok_of_container h
    obtain ⟨d, hb, hd⟩ := hx.ok hr
    cases hs
    refine ⟨d, hb, ?_⟩
    intro t
    rw [container_succ, hd]
    rfl
  error {n m b c e} h he t := by
    cases n with
    | zero =>
      rw [container_zero] at h ⊢
      cases h
      rfl
    | succ n =>
      rw [container_succ] at h ⊢
      cases hr : x ⟨n, b⟩ with
      | mk r s =>
        rw [hr] at h
        cases h
        rw [hx.error hr he t]
        rfl

/-- The bytes used up are the same ones whatever follows them. -/
theorem capture {x : Attempt Session α} (hx : Forward x) : Forward (capture x) where
  ok {n m b c a} h := by
    obtain ⟨hr, hused⟩ := eq_ok_of_capture h
    obtain ⟨d, rfl, hd⟩ := hx.ok hr
    obtain rfl : d = a.2 := by simpa using hused.symm
    exact ⟨a.2, rfl, fun t => capture_eq (hd t)⟩
  error {n m b c e} h he t := by
    rcases Attempt.eq_error_of_bind h with hget | ⟨before, s, hget, h⟩
    · cases hget
    · cases hget
      rcases Attempt.eq_error_of_bind h with hv | ⟨v, s, hv, h⟩
      · rw [Session.capture, Attempt.bind_ok (Attempt.get_run _)]
        exact Attempt.bind_error (hx.error hv he t) _
      · cases h

/-- A proper beginning of the bytes that a success uses up is not enough: no other fault comes
before their end, and a success on less of them would have used up less. -/
theorem runs_out {x : Attempt Session α} (hx : Forward x) {d j : Bytes}
    (h : x ⟨n, d ++ c⟩ = (.ok a, ⟨m, c⟩)) (hj : j <+: d ++ c) (hlt : j.length < d.length) :
    ∃ t, x ⟨n, j⟩ = (.error .endOfInput, t) := by
  obtain ⟨rest, hj⟩ := hj
  cases hr : x ⟨n, j⟩ with
  | mk r s =>
    cases r with
    | ok b =>
      obtain ⟨d', rfl, hd'⟩ := hx.ok hr
      have hwhole := hd' (s.bytes ++ rest)
      rw [← List.append_assoc, hj] at hwhole
      have hrest : c = s.bytes ++ rest := congrArg (fun x => x.2.bytes) (h.symm.trans hwhole)
      rw [hrest, List.append_assoc, List.append_cancel_right_eq] at hj
      rw [← hj, List.length_append] at hlt
      omega
    | error e =>
      by_cases he : e = .endOfInput
      · exact ⟨s, by rw [he]⟩
      · have hwhole := hx.error hr he rest
        rw [hj] at hwhole
        cases h.symm.trans hwhole

theorem onBytes {x : Attempt Bytes α}
    (hok : ∀ {b c a}, x b = (.ok a, c) → ∃ d, b = d ++ c ∧ ∀ t, x (d ++ t) = (.ok a, t))
    (herror : ∀ {b c e}, x b = (.error e, c) → e ≠ .endOfInput →
      ∀ t, x (b ++ t) = (.error e, c ++ t)) : Forward (onBytes x) where
  ok {n m b c a} h := by
    obtain ⟨hr, rfl⟩ := eq_of_onBytes h
    obtain ⟨d, hb, hd⟩ := hok hr
    exact ⟨d, hb, fun t => onBytes_eq (hd t)⟩
  error {n m b c e} h he t := by
    obtain ⟨hr, rfl⟩ := eq_of_onBytes h
    exact onBytes_eq (herror hr he t)

theorem take (k : Nat) : Forward (Session.onBytes (Unread.take k)) := by
  apply onBytes
  · intro b c a h
    rw [Unread.take_eq] at h
    split at h
    · cases h
    · rename_i hk
      cases h
      refine ⟨b.take k, (List.take_append_drop k b).symm, ?_⟩
      intro t
      exact Unread.take_append (List.length_take_of_le (Nat.le_of_not_lt hk))
  · intro b c e h he
    rw [Unread.take_eq] at h
    split at h
    · cases h
      exact absurd rfl he
    · cases h

theorem base128 (room : Nat) : Forward (Session.onBytes (Base128.decode room)) :=
  onBytes Base128.decode_ok Base128.decode_error

theorem enter : Forward Session.enter where
  ok {n m b c a} h := by
    rw [Session.enter] at h
    split at h
    · cases h
    · rename_i hn
      cases h
      exact ⟨[], rfl, fun t => by rw [Session.enter, if_neg hn]; rfl⟩
  error {n m b c e} h _ t := by
    rw [Session.enter] at h
    split at h
    · rename_i hn
      cases h
      rw [Session.enter, if_pos hn]
    · cases h

theorem leave : Forward Session.leave where
  ok {n m b c a} h := by
    cases h
    exact ⟨[], rfl, fun t => rfl⟩
  error h := by cases h

theorem steps : Read.Steps fun _ x => Forward x where
  pure := .pure
  fail := .fail
  bind := .bind
  take := .take
  base128 := .base128

end Forward
end Session

namespace Read
open Session (Forward)
variable {α : Type} {src : Source}

theorem Query.Local.forward {q : Query} (h : q.Local) : Forward (q.run src) := by
  cases q with
  | enter => exact .enter
  | leave => exact .leave
  | remaining | input | finish => exact h.elim
  | _ => exact Forward.steps.query src trivial

theorem Program.Local.forward {p : Program α} (h : p.Local) : Forward (p.run src) := by
  induction p with
  | done a => exact .pure a
  | ask q => exact Query.Local.forward h
  | fail e => exact .fail e
  | andThen p k ihp ihk => exact (ihp h.1).bind fun a => ihk a (h.2 a)
  | container p ih => exact (ih h).container
  | capture p ih => exact (ih h).capture

end Read
end Bytewire
