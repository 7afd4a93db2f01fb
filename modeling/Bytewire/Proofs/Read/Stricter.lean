import Bytewire.Proofs.Read.Steps
import Bytewire.Read.Program

/-! Readers of one input by rules of which one's are the stricter: lower limits, or the demand that
keys are in order. The stricter reader does what the other one does, step by step, until it refuses
for a rule that is its own. -/
namespace Bytewire.Read
open Session
variable {α β : Type} {src wide : Source} {s t : Session}

structure Source.Stricter (src wide : Source) : Prop where
  coding : src.layout.coding = wide.layout.coding
  canonical : wide.layout.canonical → src.layout.canonical
  depth_le : src.limits.depth ≤ wide.limits.depth
  length_le : src.limits.length ≤ wide.limits.length
  input : src.input = wide.input

def Source.Refuses (src wide : Source) : Fault → Prop
  | .depthExceeded => src.limits.depth < wide.limits.depth
  | .invalidLength _ => src.limits.length < wide.limits.length
  | .keysNotIncreasing => src.layout.canonical ∧ ¬ wide.layout.canonical
  | _ => False

structure Abreast (src wide : Source) (s t : Session) : Prop where
  bytes : s.bytes = t.bytes
  budget_le : s.budget ≤ t.budget
  depth_lt : s.budget < t.budget → src.limits.depth < wide.limits.depth

/-- `x`, run by the stricter reader, gives what `y` gives by the other, or refuses. -/
def Follows (src wide : Source) (x y : Attempt Session α) : Prop :=
  ∀ s t, Abreast src wide s t →
    (∃ e, (x s).1 = .error e ∧ src.Refuses wide e) ∨
      (x s).1 = (y t).1 ∧ Abreast src wide (x s).2 (y t).2

theorem Abreast.restore (h : Abreast src wide s t) : Abreast src wide s.restore t.restore where
  bytes := h.bytes
  budget_le := by
    have := h.budget_le
    simp only [Session.restore]
    omega
  depth_lt := by
    intro hlt
    apply h.depth_lt
    simp only [Session.restore] at hlt
    omega

namespace Follows
variable {x y : Attempt Session α}

theorem pure (a : α) : Follows src wide (pure a) (pure a) := fun _ _ h => .inr ⟨rfl, h⟩

theorem fail (e : Fault) : Follows src wide (.fail e : Attempt Session α) (.fail e) :=
  fun _ _ h => .inr ⟨rfl, h⟩

theorem lift (r : Except Fault α) : Follows src wide (.lift r) (.lift r) :=
  fun _ _ h => .inr ⟨rfl, h⟩

theorem refuse {e : Fault} (h : src.Refuses wide e) : Follows src wide (.fail e) y :=
  fun _ _ _ => .inl ⟨e, rfl, h⟩

theorem bind {f g : α → Attempt Session β} (hx : Follows src wide x y)
    (hf : ∀ a, Follows src wide (f a) (g a)) : Follows src wide (x >>= f) (y >>= g) := by
  intro s t h
  have hst := hx s t h
  rw [Attempt.bind_run, Attempt.bind_run]
  generalize x s = p at hst ⊢
  generalize y t = q at hst ⊢
  obtain ⟨e, he, hrefuses⟩ | ⟨hsame, hnext⟩ := hst
  · rcases p with ⟨r, u⟩
    cases he
    exact .inl ⟨e, rfl, hrefuses⟩
  · rcases p with ⟨r, u⟩
    rcases q with ⟨r', v⟩
    obtain rfl : r = r' := hsame
    cases r with
    | ok a => exact hf a u v hnext
    | error e => exact .inr ⟨rfl, hnext⟩

theorem after (hx : Follows src wide x y) : Follows src wide (x.after restore) (y.after restore) :=
  fun s t h => (hx s t h).imp id fun hst => ⟨hst.1, hst.2.restore⟩

theorem onBytes (z : Attempt Bytes α) : Follows src wide (onBytes z) (onBytes z) := by
  intro s t h
  refine .inr ⟨?_, ?_, h.budget_le, h.depth_lt⟩
  · simp only [Session.onBytes, h.bytes]
  · simp only [Session.onBytes, h.bytes]

/-- Looking at the bytes that are left, readers at the same place see the same. -/
theorem bind_get {f g : Session → Attempt Session α}
    (h : ∀ s t, Abreast src wide s t → Follows src wide (f s) (g t)) :
    Follows src wide (.get >>= f) (.get >>= g) := fun s t hst => h s t hst s t hst

theorem enter : Follows src wide Session.enter Session.enter := by
  intro s t h
  have hle := h.budget_le
  by_cases hs : s.budget = 0
  · by_cases ht : t.budget = 0
    · simp only [Session.enter, hs, ht, if_true]
      exact .inr ⟨trivial, h⟩
    · simp only [Session.enter, hs, if_true]
      exact .inl ⟨_, rfl, h.depth_lt (by omega)⟩
  · have ht : t.budget ≠ 0 := by omega
    simp only [Session.enter, hs, ht, if_false]
    refine .inr ⟨trivial, h.bytes, ?_, ?_⟩
    · exact Nat.sub_le_sub_right hle 1
    · intro hlt
      exact h.depth_lt (by dsimp only at hlt; omega)

theorem leave : Follows src wide Session.leave Session.leave :=
  fun _ _ h => .inr ⟨rfl, h.restore⟩

theorem container (hx : Follows src wide x y) : Follows src wide (container x) (container y) :=
  enter.bind fun _ => hx.after

theorem capture (hx : Follows src wide x y) : Follows src wide (capture x) (capture y) := by
  refine bind_get fun s t h => hx.bind fun a => bind_get fun u v h' => ?_
  rw [h.bytes, h'.bytes]
  exact pure _

theorem steps : Steps fun _ x => Follows src wide x x where
  pure := .pure
  fail := .fail
  bind := .bind
  take _ := .onBytes _
  base128 _ := .onBytes _

end Follows

namespace Source.Stricter

theorem readLength (h : src.Stricter wide) : src.layout.readLength = wide.layout.readLength := by
  rw [Layout.readLength, Layout.readLength, h.coding]

theorem readVariant (h : src.Stricter wide) :
    src.layout.readVariant = wide.layout.readVariant := by
  rw [Layout.readVariant, Layout.readVariant, h.coding]

theorem length (h : src.Stricter wide) : Follows src wide (length src) (length wide) := by
  rw [Read.length, Read.length, h.readLength]
  refine (Follows.onBytes _).bind fun n => ?_
  have hle := h.length_le
  by_cases hwide : wide.limits.Allows n
  · by_cases hsrc : src.limits.Allows n
    · rw [if_pos hsrc, if_pos hwide]
      exact .pure _
    · rw [if_neg hsrc]
      refine .refuse ?_
      simp only [Limits.Allows] at hsrc hwide
      simp only [Source.Refuses]
      omega
  · have hsrc : ¬ src.limits.Allows n := by
      simp only [Limits.Allows] at hwide ⊢
      omega
    rw [if_neg hsrc, if_neg hwide]
    exact .fail _

theorem counted (h : src.Stricter wide) : Follows src wide (counted src) (counted wide) :=
  h.length.bind fun _ => .onBytes _

theorem keys (h : src.Stricter wide) (previous current : Bytes) :
    Follows src wide (.lift (src.layout.checkKeys previous current))
      (.lift (wide.layout.checkKeys previous current)) := by
  by_cases hwide : wide.layout.canonical
  · rw [Layout.checkKeys, Layout.checkKeys, if_pos hwide, if_pos (h.canonical hwide)]
    exact .lift _
  · by_cases hsrc : src.layout.canonical
    · rw [Layout.checkKeys, Layout.checkKeys, if_neg hwide, if_pos hsrc, Entries.checkIncreasing]
      split
      · exact .lift _
      · exact .refuse ⟨hsrc, hwide⟩
    · rw [Layout.checkKeys, Layout.checkKeys, if_neg hwide, if_neg hsrc]
      exact .lift _

theorem query (h : src.Stricter wide) (q : Query) : Follows src wide (q.run src) (q.run wide) := by
  cases q with
  | unit => exact .pure _
  | bool | tag => exact Follows.steps.flag
  | uint w | int w => exact Follows.steps.word w
  | natural | integer => exact (Follows.steps.word .w128).bind fun _ => .pure _
  | text => exact h.counted.bind fun _ => .lift _
  | bytes => exact h.counted
  | length => exact h.length
  | variant =>
    rw [Query.run, Query.run, h.readVariant]
    exact .onBytes _
  | unencodable k => exact .fail _
  | enter => exact .enter
  | leave => exact .leave
  | keys previous current => exact h.keys previous current
  | remaining =>
    refine .bind_get fun s t hst => ?_
    rw [hst.bytes]
    exact .pure _
  | input =>
    rw [Query.run, Query.run, h.input]
    exact .pure _
  | finish =>
    refine .bind_get fun s t hst => ?_
    rw [hst.bytes]
    dsimp only
    split
    · exact .pure _
    · exact .fail _

theorem program (h : src.Stricter wide) (p : Program α) :
    Follows src wide (p.run src) (p.run wide) := by
  induction p with
  | done a => exact .pure a
  | ask q => exact h.query q
  | fail e => exact .fail e
  | andThen p k ihp ihk => exact ihp.bind ihk
  | container p ih => exact ih.container
  | capture p ih => exact ih.capture

end Source.Stricter

/-- What a program makes of an input by the stricter rules and by the others. By the stricter ones
it succeeds only as it does by the others, and it ends as it does by the others, in the same place,
or in a fault of the given kind. -/
structure Restricts (src wide : Source) (refusal : Fault → Prop) (p : Program α) : Prop where
  ok : ∀ a s, p.run src (.start src.limits src.input) = (.ok a, s) →
    ∃ t, p.run wide (.start wide.limits wide.input) = (.ok a, t) ∧ offset wide t = offset src s
  same : ∀ r t, p.run wide (.start wide.limits wide.input) = (r, t) →
    (∃ s, p.run src (.start src.limits src.input) = (r, s) ∧ offset src s = offset wide t) ∨
      ∃ e s, p.run src (.start src.limits src.input) = (.error e, s) ∧ refusal e

theorem Restricts.imp {P Q : Fault → Prop} {p : Program α} (h : Restricts src wide P p)
    (hPQ : ∀ e, P e → Q e) : Restricts src wide Q p where
  ok := h.ok
  same := by
    intro r t ht
    obtain hs | ⟨e, s, hs, he⟩ := h.same r t ht
    · exact .inl hs
    · exact .inr ⟨e, s, hs, hPQ e he⟩

theorem Source.Stricter.offset_eq (h : src.Stricter wide) (hst : Abreast src wide s t) :
    offset src s = offset wide t := by
  rw [offset, offset, h.input, hst.bytes]

theorem Source.Stricter.restricts (h : src.Stricter wide) (p : Program α) :
    Restricts src wide (src.Refuses wide) p := by
  have hstart : Abreast src wide (.start src.limits src.input) (.start wide.limits wide.input) :=
    ⟨h.input, h.depth_le, id⟩
  have hrun := h.program p _ _ hstart
  constructor
  · intro a s hs
    rw [hs] at hrun
    obtain ⟨e, he, -⟩ | ⟨hsame, hnext⟩ := hrun
    · cases he
    · exact ⟨(p.run wide (.start wide.limits wide.input)).2, Prod.ext hsame.symm rfl,
        (h.offset_eq hnext).symm⟩
  · intro r t ht
    rw [ht] at hrun
    obtain ⟨e, he, hrefuses⟩ | ⟨hsame, hnext⟩ := hrun
    · exact .inr ⟨e, _, Prod.ext he rfl, hrefuses⟩
    · exact .inl ⟨(p.run src (.start src.limits src.input)).2, Prod.ext hsame rfl,
        h.offset_eq hnext⟩

/-- Limits only restrict. Under lower limits a program succeeds only as it does under higher ones,
and it ends as it does under the higher ones unless the depth or a length is refused. -/
theorem limits_restrict (l : Layout) {lim wide : Limits} (hd : lim.depth ≤ wide.depth)
    (hl : lim.length ≤ wide.length) (p : Program α) (i : Bytes) :
    Restricts ⟨l, lim, i⟩ ⟨l, wide, i⟩ (fun e => e = .depthExceeded ∨ ∃ n, e = .invalidLength n)
      p := by
  have hstricter : Source.Stricter ⟨l, lim, i⟩ ⟨l, wide, i⟩ := ⟨rfl, id, hd, hl, rfl⟩
  refine (hstricter.restricts p).imp ?_
  intro e he
  cases e with
  | depthExceeded => exact .inl rfl
  | invalidLength n => exact .inr ⟨n, rfl⟩
  | keysNotIncreasing => exact absurd he.1 he.2
  | _ => exact he.elim

def lines : Program (List (List Bytes)) := .sequence (.sequence (.ask .bytes))

def linesInput : Bytes := [2, 1, 3, 97, 98, 99, 0]

/-- The string is too long for the lower limit. -/
theorem limits_restrict_lines :
    let l := Layout.mk .compact true
    let lim : Limits := { depth := 2, length := 2 }
    let wide : Limits := { depth := 3, length := 3 }
    lim.depth ≤ wide.depth ∧ lim.length ≤ wide.length ∧
      lines.run ⟨l, wide, linesInput⟩ (.start wide linesInput) =
        (.ok [[[97, 98, 99]], []], .start wide []) ∧
      ((∃ s, lines.run ⟨l, lim, linesInput⟩ (.start lim linesInput) =
          (.ok [[[97, 98, 99]], []], s) ∧ offset ⟨l, lim, linesInput⟩ s = 7) ∨
        ∃ e s, lines.run ⟨l, lim, linesInput⟩ (.start lim linesInput) = (.error e, s) ∧
          (e = .depthExceeded ∨ ∃ n, e = .invalidLength n)) ∧
      lines.outcome ⟨l, lim, linesInput⟩ = .error (.invalidLength 3) := by
  intro l lim wide
  have hd : lim.depth ≤ wide.depth := by decide
  have hl : lim.length ≤ wide.length := by decide
  have hwide : lines.run ⟨l, wide, linesInput⟩ (.start wide linesInput) =
      (.ok [[[97, 98, 99]], []], .start wide []) := by rfl
  exact ⟨hd, hl, hwide, (limits_restrict l hd hl lines linesInput).same _ _ hwide, rfl⟩

/-- To ask for keys in order only restricts: it makes a program end otherwise only where keys are
not in order. -/
theorem canonical_restricts (c : Coding) (lim : Limits) (i : Bytes) (p : Program α) :
    Restricts ⟨⟨c, true⟩, lim, i⟩ ⟨⟨c, false⟩, lim, i⟩ (fun e => e = .keysNotIncreasing) p := by
  have hstricter : Source.Stricter ⟨⟨c, true⟩, lim, i⟩ ⟨⟨c, false⟩, lim, i⟩ :=
    ⟨rfl, fun _ => rfl, Nat.le_refl _, Nat.le_refl _, rfl⟩
  refine (hstricter.restricts p).imp ?_
  intro e he
  cases e with
  | keysNotIncreasing => rfl
  | depthExceeded => exact absurd he (Nat.lt_irrefl _)
  | invalidLength n => exact absurd he (Nat.lt_irrefl _)
  | _ => exact he.elim

end Bytewire.Read
