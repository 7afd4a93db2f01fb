import Bytewire.Read.Query

/-! Queries as they are made of steps that take bytes off the front. What the steps have, and what
is kept when one follows another, the queries have that neither open nor close a container nor look
at the bytes that are left. -/
namespace Bytewire.Read
open Session

/-- A property of steps, of what ends at once, and of one after another. -/
structure Steps (P : (α : Type) → Attempt Session α → Prop) : Prop where
  pure : ∀ {α : Type} (a : α), P α (pure a)
  fail : ∀ {α : Type} (e : Fault), P α (.fail e)
  bind : ∀ {α β : Type} {x : Attempt Session α} {f : α → Attempt Session β}, P α x →
    (∀ a, P β (f a)) → P β (x >>= f)
  take : ∀ n, P Bytes (onBytes (Unread.take n))
  base128 : ∀ room, P Nat (onBytes (Base128.decode room))

def Query.Stepwise : Query → Prop
  | .enter | .leave | .remaining | .finish => False
  | _ => True

namespace Steps
variable {P : (α : Type) → Attempt Session α → Prop} {α : Type} (src : Source)

theorem lift (h : Steps P) (r : Except Fault α) : P α (.lift r) := by
  cases r with
  | ok a => exact h.pure a
  | error e => exact h.fail e

theorem readLength (h : Steps P) (l : Layout) : P Int (onBytes l.readLength) := by
  rw [Layout.readLength]
  split
  · rw [onBytes_bind]
    exact h.bind (h.take 8) fun _ => h.pure _
  · rw [onBytes_bind]
    exact h.bind (h.base128 32) fun _ => h.pure _

theorem readVariant (h : Steps P) (l : Layout) : P UInt32 (onBytes l.readVariant) := by
  rw [Layout.readVariant]
  split
  · rw [onBytes_bind]
    exact h.bind (h.take 4) fun _ => h.pure _
  · rw [onBytes_bind]
    exact h.bind (h.base128 32) fun _ => h.pure _

theorem word (h : Steps P) (w : Width) : P (Word w) (word w) :=
  h.bind (h.take w.bytes) fun _ => h.pure _

theorem flag (h : Steps P) : P Bool flag := by
  refine h.bind (h.word .w8) fun b => ?_
  split
  · exact h.pure false
  · split
    · exact h.pure true
    · exact h.fail _

theorem length (h : Steps P) : P Nat (length src) := by
  refine h.bind (h.readLength src.layout) fun n => ?_
  split
  · exact h.pure _
  · exact h.fail _

theorem counted (h : Steps P) : P Bytes (counted src) :=
  h.bind (h.length src) fun n => h.take n

theorem query (h : Steps P) {q : Query} (hq : q.Stepwise) : P q.Result (q.run src) := by
  cases q with
  | unit => exact h.pure ()
  | bool | tag => exact h.flag
  | uint w | int w => exact h.word w
  | natural | integer => exact h.bind (h.word .w128) fun _ => h.pure _
  | text => exact h.bind (h.counted src) fun b => h.lift (Text.decode b)
  | bytes => exact h.counted src
  | length => exact h.length src
  | variant => exact h.readVariant src.layout
  | unencodable k => exact h.fail _
  | keys previous current => exact h.lift _
  | input => exact h.pure _
  | enter | leave | remaining | finish => exact hq.elim

end Steps
end Bytewire.Read
