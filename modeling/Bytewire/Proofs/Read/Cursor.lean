import Bytewire.Proofs.Read.Machine
import Bytewire.Proofs.Read.Steps
import Bytewire.Proofs.Read.Success

/-! Where a reader is in its input. It only goes forward, whatever fails, so that what it has not
read is always the end of the input behind its offset. -/
namespace Bytewire

theorem Unread.take_suffix (n : Nat) (b : Bytes) : (take n b).2 <:+ b := by
  rw [take_eq]
  split
  · exact List.suffix_refl b
  · exact List.drop_suffix n b

theorem Base128.decode_suffix (room : Nat) (b : Bytes) : (decode room b).2 <:+ b := by
  induction b generalizing room with
  | nil => exact List.suffix_refl []
  | cons x xs ih =>
    have hxs := ih (room - 7)
    rw [decode]
    split
    · exact List.suffix_cons x xs
    · split
      · exact List.suffix_cons x xs
      · generalize decode (room - 7) xs = r at hxs ⊢
        rcases r with ⟨_ | n, c⟩ <;> exact hxs.trans (List.suffix_cons x xs)

theorem slice_of_suffix {b c t : Bytes} (h : c ++ t <:+ b) :
    slice b (b.length - t.length - c.length) (b.length - t.length) = .ok c := by
  obtain ⟨front, rfl⟩ := h
  have hstop : (front ++ (c ++ t)).length - t.length = (front ++ c).length := by
    simp only [List.length_append]
    omega
  have hstart : (front ++ c).length - c.length = front.length := by
    rw [List.length_append, Nat.add_sub_cancel]
  rw [hstop, hstart, ← List.append_assoc, slice_eq (by simp) (by simp), List.take_left,
    List.drop_left]

namespace Read
open Session
variable {α β : Type} {src : Source} {s t : Session} {c : Bytes} {k : Nat}

def Consumes (x : Attempt Session α) : Prop := ∀ s, (x s).2.bytes <:+ s.bytes

namespace Consumes
variable {x : Attempt Session α}

theorem suffix {r : Except Fault α} (hx : Consumes x) (h : x s = (r, t)) : t.bytes <:+ s.bytes := by
  simpa [h] using hx s

theorem pure (a : α) : Consumes (pure a) := fun s => List.suffix_refl s.bytes

theorem fail (e : Fault) : Consumes (.fail e : Attempt Session α) :=
  fun s => List.suffix_refl s.bytes

theorem get : Consumes .get := fun s => List.suffix_refl s.bytes

theorem bind {f : α → Attempt Session β} (hx : Consumes x) (hf : ∀ a, Consumes (f a)) :
    Consumes (x >>= f) :=
  Attempt.bind_state (fun (s t : Session) => t.bytes <:+ s.bytes) (fun h h' => h'.trans h) hx hf

theorem onBytes {x : Attempt Bytes α} (h : ∀ b, (x b).2 <:+ b) : Consumes (onBytes x) :=
  fun s => h s.bytes

theorem enter : Consumes Session.enter := by
  intro s
  rw [Session.enter]
  split <;> exact List.suffix_refl s.bytes

theorem leave : Consumes Session.leave := fun s => List.suffix_refl s.bytes

theorem container (hx : Consumes x) : Consumes (container x) :=
  enter.bind fun _ s => hx s

theorem capture (hx : Consumes x) : Consumes (capture x) :=
  get.bind fun _ => hx.bind fun _ => get.bind fun _ => .pure _

theorem steps : Steps fun _ x => Consumes x where
  pure := .pure
  fail := .fail
  bind := .bind
  take n := .onBytes (Unread.take_suffix n)
  base128 room := .onBytes (Base128.decode_suffix room)

end Consumes

theorem Query.consumes (q : Query) : Consumes (q.run src) := by
  cases q with
  | enter => exact .enter
  | leave => exact .leave
  | remaining => exact Consumes.get.bind fun _ => .pure _
  | finish =>
    refine Consumes.get.bind fun s => ?_
    dsimp only
    split
    · exact .pure _
    · exact .fail _
  | _ => exact Consumes.steps.query src trivial

theorem Program.consumes (p : Program α) : Consumes (p.run src) := by
  induction p with
  | done a => exact .pure a
  | ask q => exact q.consumes
  | fail e => exact .fail e
  | andThen p k ihp ihk => exact ihp.bind ihk
  | container p ih => exact ih.container
  | capture p ih => exact ih.capture

def Placed (src : Source) (s : Session) : Prop := s.bytes <:+ src.input

namespace Placed

theorem length_add_offset (h : Placed src s) :
    s.bytes.length + offset src s = src.input.length := by
  have hle := h.length_le
  rw [offset]
  omega

theorem bytes_eq (h : Placed src s) : s.bytes = src.input.drop (offset src s) :=
  List.suffix_iff_eq_drop.1 h

theorem machine_offset (h : Placed src s) :
    Machine.offset src s = some (.ok (offset src s), s) := by
  have hget : Machine.run .get s = some (.ok s, s) := rfl
  rw [Machine.offset, Machine.bind_ok hget, Machine.sub_eq h.length_le]
  rfl

end Placed

theorem offset_le_offset (src : Source) (h : t.bytes <:+ s.bytes) :
    offset src s ≤ offset src t := by
  have hle := h.length_le
  rw [offset, offset]
  omega

/-- The machine cuts out the bytes that a part has used up. -/
theorem Placed.machine_capture {x : Attempt Session α} {y : Machine Session α} (hx : Consumes x)
    (h : Placed src s) (hy : y s = some (x s)) :
    Machine.capture src y s = some (capture x s) := by
  rw [Machine.capture, Machine.bind_ok h.machine_offset, capture,
    Attempt.bind_ok (Attempt.get_run s)]
  refine Machine.bind_eq_some hy ?_
  intro a t ht
  have hsuffix := hx.suffix ht
  have hplaced : Placed src t := hsuffix.trans h
  have hs := h.length_add_offset
  have ht := hplaced.length_add_offset
  -- the piece is there, since the part has gone forward and not beyond the end
  have hpiece : Machine.piece src.input (offset src s) (offset src t) =
      some (s.bytes.take (s.bytes.length - t.bytes.length)) := by
    rw [Machine.piece_eq (offset_le_offset src hsuffix) (by omega), List.drop_take, ← h.bytes_eq,
      show offset src t - offset src s = s.bytes.length - t.bytes.length by omega]
  rw [Machine.bind_ok hplaced.machine_offset, hpiece, Attempt.bind_ok (Attempt.get_run t)]
  rfl

/-- The machine runs every program to its end, from every place in the input. -/
theorem Program.machine_eq (p : Program α) (h : Placed src s) :
    p.machine src s = some (p.run src s) := by
  induction p generalizing s with
  | done a => rfl
  | ask q => exact congrFun (q.machine_eq_run src) s
  | fail e => rfl
  | andThen p k ihp ihk =>
    refine Machine.bind_eq_some (ihp h) ?_
    intro a t ht
    exact ihk a ((p.consumes.suffix ht).trans h)
  | container p ih =>
    refine Machine.bind_eq_some (congrFun Machine.enter_eq_run s) ?_
    intro _ t ht
    have hplaced : Placed src t := (Consumes.enter.suffix ht).trans h
    rw [Machine.after, ih hplaced]
    rfl
  | capture p ih => exact h.machine_capture p.consumes (ih h)

def Intact (x : Attempt Session α) : Prop := ∀ s t, x s = (.error .endOfInput, t) → t = s

namespace Intact

theorem take (n : Nat) : Intact (onBytes (Unread.take n)) := by
  intro s t h
  rw [onBytes, Unread.take_eq] at h
  split at h
  · cases h
    rfl
  · cases h

theorem bind {x : Attempt Session α} {f : α → Attempt Session β} (hx : Intact x)
    (hf : ∀ a s, (f a s).1 ≠ .error .endOfInput) : Intact (x >>= f) := by
  intro s t h
  obtain hs | ⟨a, u, -, hu⟩ := Attempt.eq_error_of_bind h
  · exact hx s t hs
  · exact absurd (congrArg Prod.fst hu) (hf a u)

theorem word (w : Width) : Intact (word w) := (take w.bytes).bind (by simp [Attempt.pure_run])

theorem flag : Intact flag := by
  refine (word .w8).bind ?_
  intro b s
  split
  · simp [Attempt.pure_run]
  · split <;> simp [Attempt.pure_run, Attempt.fail]

theorem length (hc : src.layout.coding = .fixed) : Intact (length src) := by
  rw [Read.length, Layout.readLength, hc]
  dsimp only
  rw [onBytes_bind, bind_assoc]
  refine (take 8).bind ?_
  intro b s
  simp only [onBytes, Attempt.bind_run, Attempt.pure_run]
  split <;> simp [Attempt.pure_run, Attempt.fail]

theorem variant (hc : src.layout.coding = .fixed) : Intact (Query.variant.run src) := by
  rw [Query.run, Layout.readVariant, hc]
  dsimp only
  rw [onBytes_bind]
  exact (take 4).bind (by simp [onBytes, Attempt.pure_run])

end Intact

def Query.FixedWidth (l : Layout) : Query → Prop
  | .bool | .tag | .uint _ | .int _ | .natural | .integer => True
  | .length | .variant => l.coding = .fixed
  | _ => False

theorem Query.FixedWidth.intact {q : Query} (h : q.FixedWidth src.layout) : Intact (q.run src) := by
  cases q with
  | bool | tag => exact .flag
  | uint w | int w => exact .word w
  | natural | integer => exact (Intact.word .w128).bind (by simp [Attempt.pure_run])
  | length => exact .length h
  | variant => exact .variant h
  | _ => exact h.elim

theorem le_of_length (h : length src s = (.ok k, t)) : k ≤ src.limits.length := by
  obtain ⟨n, u, -, hn⟩ := Attempt.eq_ok_of_bind h
  split at hn
  · rename_i hallows
    cases hn
    exact Int.toNat_le.2 hallows.2
  · cases hn

/-- The bytes that a length counts are those that end where the reader is then. -/
theorem eq_ok_of_counted (h : counted src s = (.ok c, t)) :
    c.length ≤ src.limits.length ∧ c ++ t.bytes <:+ s.bytes := by
  obtain ⟨k, u, hk, htake⟩ := Attempt.eq_ok_of_bind h
  obtain ⟨hu, -, rfl⟩ := eq_ok_of_take htake
  have hlength : Consumes (length src) := Consumes.steps.length src
  rw [← hu]
  exact ⟨le_of_length hk, hlength.suffix hk⟩

theorem eq_ok_of_string {q : Query} {r : q.Result} (hq : q = .text ∨ q = .bytes)
    (h : q.run src s = (.ok r, t)) (hr : q.answer r = .bytes c) : counted src s = (.ok c, t) := by
  cases hq with
  | inl hq =>
    subst hq
    obtain ⟨d, u, hd, hlift⟩ := Attempt.eq_ok_of_bind h
    obtain ⟨htext, rfl⟩ := Prod.mk.inj hlift
    cases hr
    rw [Text.encode_of_decode htext]
    exact hd
  | inr hq =>
    subst hq
    cases hr
    exact h

/-- A state of a reader from which nothing can go wrong but by a fault: what it has not read is the
input behind its offset, no program stops the machine, a query of known width that finds too little
leaves it as it is, and a string is the part of the input that ends where the reader is then, within
the limit. -/
structure Safe (src : Source) (s : Session) : Prop where
  bytes : s.bytes = src.input.drop (offset src s)
  offset_le : offset src s ≤ src.input.length
  remaining : ∃ n, Query.remaining.run src s = (.ok n, s) ∧ n + offset src s = src.input.length
  offset_ok : Machine.offset src s = some (.ok (offset src s), s)
  machine : ∀ {α : Type} (p : Program α), p.machine src s = some (p.run src s)
  intact : ∀ (q : Query) t, q.FixedWidth src.layout → q.run src s = (.error .endOfInput, t) → t = s
  string : ∀ (q : Query) r b t, q = .text ∨ q = .bytes → q.run src s = (.ok r, t) →
    q.answer r = .bytes b → b.length ≤ src.limits.length ∧
      slice src.input (offset src t - b.length) (offset src t) = .ok b
  finish : (Query.finish.run src s).1 = .ok () ↔ offset src s = src.input.length

theorem Placed.safe (h : Placed src s) : Safe src s where
  bytes := h.bytes_eq
  offset_le := by
    have hlen := h.length_add_offset
    omega
  remaining := ⟨s.bytes.length, rfl, h.length_add_offset⟩
  offset_ok := h.machine_offset
  machine p := p.machine_eq h
  intact q t hq ht := hq.intact s t ht
  string q r b t hq ht hr := by
    obtain ⟨hle, hsuffix⟩ := eq_ok_of_counted (eq_ok_of_string hq ht hr)
    exact ⟨hle, slice_of_suffix (hsuffix.trans h)⟩
  finish := by
    have hlen := h.length_add_offset
    have hnil : s.bytes = [] ↔ offset src s = src.input.length := by
      rw [← List.length_eq_zero_iff]
      omega
    have hfinish : (Query.finish.run src s).1 =
        if s.bytes = [] then .ok () else .error (.extraData s.bytes.length) :=
      congrArg Prod.fst (finish_eq src s.budget s.bytes)
    rw [hfinish, ← hnil]
    by_cases hs : s.bytes = [] <;> simp [hs]

def states (src : Source) : List (Program α) → Session → List Session
  | [], s => [s]
  | p :: ps, s => s :: states src ps (p.run src s).2

theorem suffix_of_mem_states {ps : List (Program α)} (h : t ∈ states src ps s) :
    t.bytes <:+ s.bytes := by
  induction ps generalizing s with
  | nil =>
    obtain rfl := List.mem_singleton.1 h
    exact List.suffix_refl _
  | cons p ps ih =>
    cases h with
    | head => exact List.suffix_refl _
    | tail _ h => exact (ih h).trans (p.consumes s)

theorem pairwise_states (ps : List (Program α)) (s : Session) :
    (states src ps s).Pairwise fun s t => offset src s ≤ offset src t := by
  induction ps generalizing s with
  | nil => exact List.pairwise_singleton _ s
  | cons p ps ih =>
    refine .cons ?_ (ih _)
    intro t ht
    exact offset_le_offset src ((suffix_of_mem_states ht).trans (p.consumes s))

/-- Whatever input is read by whatever programs, past all failures, the offset never goes back, and
every state is safe. An entry and a leaving are programs too, so that what a container does is seen
from inside as well. -/
theorem reading_safe (l : Layout) (lim : Limits) (i : Bytes) (ps : List (Program α)) :
    let src : Source := ⟨l, lim, i⟩
    (states src ps (.start lim i)).Pairwise (fun s t => offset src s ≤ offset src t) ∧
      ∀ s ∈ states src ps (.start lim i), Safe src s := by
  intro src
  refine ⟨pairwise_states ps _, ?_⟩
  intro s hs
  have hplaced : Placed src s := suffix_of_mem_states hs
  exact hplaced.safe

end Read
end Bytewire
