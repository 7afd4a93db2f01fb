import Bytewire.Proofs.Read.Cursor
import Bytewire.Read.Script

/-! Trees of any depth. A node uses up bytes before the nodes within it are read, so that no tree has
more levels than there are bytes left, and a script reads the same however many more are allowed. -/
namespace Bytewire.Read
open Session
variable {src : Source} {s : Session} {α β κ ν : Type} {m b c n : Nat}

theorem length_lt_of_word {w : Width} {v : Word w} {t : Session}
    (h : (Program.ask (.uint w)).run src s = (.ok v, t)) : t.bytes.length < s.bytes.length := by
  obtain ⟨hbytes, -⟩ := eq_ok_of_word h
  have hwidth : 0 < w.bytes := by cases w <;> decide
  rw [hbytes, List.length_append, LittleEndian.length_encode]
  exact Nat.lt_add_of_pos_left hwidth

def Alike (src : Source) (m : Nat) (p q : Program α) : Prop :=
  ∀ s, s.bytes.length ≤ m → p.run src s = q.run src s

namespace Alike
variable {p q : Program α} {f g : α → Program β}

theorem refl (p : Program α) : Alike src m p p := fun _ _ => rfl

theorem bind (h : Alike src m p q) (hfg : ∀ a, Alike src m (f a) (g a)) :
    Alike src m (p >>= f) (q >>= g) := by
  intro s hs
  refine Attempt.bind_congr (h s hs) ?_
  intro a t ht
  exact hfg a t (Nat.le_trans (p.consumes.suffix ht).length_le hs)

theorem container (h : Alike src m p q) : Alike src m (.container p) (.container q) := by
  intro s hs
  rw [Program.run_container, Program.run_container, container_run, container_run,
    h ⟨s.budget - 1, s.bytes⟩ hs]

theorem capture (h : Alike src m p q) : Alike src m (.capture p) (.capture q) := by
  intro s hs
  refine Attempt.bind_congr rfl ?_
  rintro _ _ ⟨⟩
  exact Attempt.bind_congr (h s hs) fun _ _ _ => rfl

theorem times (h : Alike src m p q) (n : Nat) : Alike src m (p.times n) (q.times n) := by
  induction n with
  | zero => exact refl _
  | succ n ih => exact h.bind fun _ => ih.bind fun _ => refl _

theorem optional (h : Alike src m p q) : Alike src m p.optional q.optional := by
  refine (refl _).bind ?_
  intro present
  cases present with
  | false => exact refl _
  | true => exact h.bind fun _ => refl _

theorem choice {f g : UInt32 → Program α} (h : ∀ i, Alike src m (f i) (g i)) :
    Alike src m (.choice f) (.choice g) :=
  ((refl _).bind fun i => (h i).bind fun _ => refl _).container

theorem sequence (h : Alike src m p q) : Alike src m p.sequence q.sequence :=
  ((refl _).bind h.times).container

section
variable {key key' : Program κ} {value value' : Program ν}

theorem entries (hk : Alike src m key key') (hv : Alike src m value value')
    (previous : Option Bytes) (n : Nat) :
    Alike src m (.entries key value previous n) (.entries key' value' previous n) := by
  induction n generalizing previous with
  | zero => exact refl _
  | succ n ih =>
    refine hk.capture.bind ?_
    intro ⟨k, current⟩
    exact (refl _).bind fun _ => hv.bind fun _ => (ih (some current)).bind fun _ => refl _

theorem map (hk : Alike src m key key') (hv : Alike src m value value') :
    Alike src m (.map key value) (.map key' value') :=
  ((refl _).bind (hk.entries hv none)).container

end

/-- Behind a word fewer bytes are left. -/
theorem uint {w : Width} {f g : Word w → Program β}
    (h : ∀ v j, j < m → Alike src j (f v) (g v)) :
    Alike src m (.ask (.uint w) >>= f) (.ask (.uint w) >>= g) := by
  intro s hs
  refine Attempt.bind_congr rfl ?_
  intro v t ht
  exact h v t.bytes.length (Nat.lt_of_lt_of_le (length_lt_of_word ht) hs) t (Nat.le_refl _)

theorem tree_none : Alike src 0 (.tree b) (.tree c) := by
  rw [Program.tree, Program.tree]
  exact (uint fun _ _ h => absurd h (Nat.not_lt_zero _)).container

theorem tree (hb : m ≤ b) (hc : m ≤ c) : Alike src m (.tree b) (.tree c) := by
  -- on the levels of one side; behind the word of a node fewer bytes and one level less are left
  induction b generalizing m c with
  | zero =>
    obtain rfl := Nat.le_zero.1 hb
    exact tree_none
  | succ b ih =>
    cases c with
    | zero =>
      obtain rfl := Nat.le_zero.1 hc
      exact tree_none
    | succ c =>
      rw [Program.tree, Program.tree]
      refine (uint fun _ j hj => ?_).container
      have hwithin : Alike src j (.tree b) (.tree c) := ih (by omega) (by omega)
      exact (refl _).bind fun n => (hwithin.times n).bind fun _ => refl _

end Alike

mutual
theorem Script.alike (hb : m ≤ b) (hc : m ≤ c) :
    (x : Script) → Alike src m (x.program b) (x.program c)
  | .query _ => .refl _
  | .container body => (alike_all hb hc body).container.bind fun _ => .refl _
  | .option body => (alike_all hb hc body).optional.bind fun _ => .refl _
  | .choice arms => (Alike.choice fun i => alike_arm hb hc arms i.toNat).bind fun _ => .refl _
  | .sequence item => (alike_all hb hc item).sequence.bind fun _ => .refl _
  | .map key value => ((alike_all hb hc key).map (alike_all hb hc value)).bind fun _ => .refl _
  | .tree => (Alike.tree hb hc).bind fun _ => .refl _
theorem alike_all (hb : m ≤ b) (hc : m ≤ c) :
    (xs : List Script) → Alike src m (all b xs) (all c xs)
  | [] => .refl _
  | x :: xs => (x.alike hb hc).bind fun _ => alike_all hb hc xs
theorem alike_arm (hb : m ≤ b) (hc : m ≤ c) :
    (arms : List (List Script)) → (i : Nat) → Alike src m (arm b arms i) (arm c arms i)
  | [], _ => .refl _
  | [a], _ => alike_all hb hc a
  | a :: _ :: _, 0 => alike_all hb hc a
  | _ :: a :: as, i+1 => alike_arm hb hc (a :: as) i
end

/-- The levels that a script is run with never run out. -/
theorem Script.run_eq_of_le (x : Script) (hb : src.input.length ≤ b)
    (hs : s.bytes.length ≤ src.input.length) : (x.program b).run src s = x.run src s :=
  x.alike hb (Nat.le_refl _) s hs

/-- With as many levels as there are bytes left, the nodes within a node are read with no fewer, as
without a bound. -/
theorem Program.tree_run (hb : s.bytes.length ≤ b) :
    (tree b).run src s =
      (container do
        let _ ← ask (.uint .w16)
        let n ← ask .length
        let _ ← times (tree b) n : Program Unit).run src s := by
  have hdeeper : (tree b).run src s = (tree (b + 1)).run src s :=
    Alike.tree hb (Nat.le_succ_of_le hb) s (Nat.le_refl _)
  rw [hdeeper, tree]

section
variable {p q : Program α} {γ : Type}

theorem following_congr {k k' : α → Session → List γ} (hp : p.run src s = q.run src s)
    (h : ∀ a t, p.run src s = (.ok a, t) → k a t = k' a t) :
    following src p s k = following src q s k' := by
  rw [following, following, ← hp]
  cases hr : p.run src s with
  | mk r t =>
    cases r with
    | ok a => exact h a t hr
    | error e => rfl

theorem rounds_congr {p q : Program Unit} {look look' : Session → γ} (hp : Alike src m p q)
    (hlook : ∀ s, s.bytes.length ≤ m → look s = look' s) (n : Nat) (hs : s.bytes.length ≤ m) :
    rounds src p look n s = rounds src q look' n s := by
  induction n generalizing s with
  | zero => rfl
  | succ n ih =>
    rw [rounds, rounds, hlook s hs]
    refine congrArg (List.cons _) (following_congr (hp s hs) ?_)
    intro _ t ht
    exact ih (Nat.le_trans (p.consumes.suffix ht).length_le hs)

/-- What follows the head of a node has fewer bytes left than there were. -/
theorem following_head_congr {k k' : Word .w16 → Nat → Session → List γ}
    (h : ∀ v n t, t.bytes.length < s.bytes.length → k v n t = k' v n t) :
    (following src (.ask .enter) s fun _ s => following src (.ask (.uint .w16)) s fun v s =>
        following src (.ask .length) s fun n s => k v n s) =
      following src (.ask .enter) s fun _ s => following src (.ask (.uint .w16)) s fun v s =>
        following src (.ask .length) s fun n s => k' v n s := by
  refine following_congr rfl ?_
  intro _ t ht
  refine following_congr rfl ?_
  intro v u hu
  refine following_congr rfl ?_
  intro n z hz
  have hentered := ((Program.ask .enter).consumes.suffix ht).length_le
  have hcounted := ((Program.ask .length).consumes.suffix hz).length_le
  have hword := length_lt_of_word hu
  exact h v n z (by omega)

end

/-- The levels that a tree is reported with never run out either. -/
theorem treeNodes_eq_of_le (depth : Nat) (hb : s.bytes.length ≤ b) (hc : s.bytes.length ≤ c) :
    treeNodes src depth b s = treeNodes src depth c s := by
  induction b generalizing depth c s with
  | zero =>
    rw [treeNodes, treeNodes]
    exact following_head_congr fun _ _ _ h => absurd h (by omega)
  | succ b ih =>
    rw [treeNodes, treeNodes]
    refine following_head_congr ?_
    intro v n t ht
    cases c with
    | zero => exact absurd ht (by omega)
    | succ c =>
      have hwithin : Alike src t.bytes.length (.tree b) (.tree c) :=
        .tree (by omega) (by omega)
      have hnodes : rounds src (.tree b) (treeNodes src (depth + 1) b) n t =
          rounds src (.tree c) (treeNodes src (depth + 1) c) n t :=
        rounds_congr hwithin (fun _ hs => ih (depth + 1) (by omega) (by omega)) n (Nat.le_refl _)
      exact congrArg (fun nodes => ⟨depth, v, n⟩ :: nodes.flatten) hnodes

end Bytewire.Read
