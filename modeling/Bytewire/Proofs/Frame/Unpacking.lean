import Bytewire.Bytes.Patch
import Bytewire.Frame.Block
import Bytewire.Frame.Unpack

/-! Unpacking in place does what reading the frame into another place does: the buffer ends up with
the expanded text over its front, and all behind that text is as it was. -/
namespace Bytewire.Frame
open Buffer

theorem expand_nil : expand [] = ([], true) := by
  rw [expand]

/-- A code of one never reaches too far, so that it needs no exception. -/
theorem ne_one_of_lt {c : UInt8} {n : Nat} (h : n + 1 < c.toNat) : c ≠ 1 := by
  rintro rfl
  exact absurd h (by simp)

theorem expand_of_lt {c : UInt8} {rest : Bytes} (h : rest.length + 1 < c.toNat) :
    expand (c :: rest) = ([], false) := by
  rw [expand, if_pos ⟨h, ne_one_of_lt h⟩]

def chunk (c : UInt8) (rest : Bytes) : Bytes :=
  rest.take (c.toNat - 1) ++
    if c.toNat ≠ fullCode ∧ c.toNat - 1 < rest.length then [terminator] else []

theorem expand_of_le {c : UInt8} {rest : Bytes} (h : c.toNat ≤ rest.length + 1) :
    expand (c :: rest) = (chunk c rest ++ (expand (rest.drop (c.toNat - 1))).1,
      (expand (rest.drop (c.toNat - 1))).2) := by
  rw [expand, if_neg (by omega)]
  rfl

theorem length_chunk_le (c : UInt8) (rest : Bytes) :
    (chunk c rest).length ≤ c.toNat - 1 + 1 := by
  rw [chunk, List.length_append, List.length_take]
  split
  · rw [List.length_singleton]
    omega
  · rw [List.length_nil]
    omega

/-- The block at the very end puts down its run alone. -/
theorem length_chunk_last {c : UInt8} {rest : Bytes} (h : rest.length ≤ c.toNat - 1) :
    (chunk c rest).length = rest.length := by
  rw [chunk, if_neg (by omega), List.append_nil, List.take_of_length_le h]

/-- What a frame stands for, as far as it can be read, is shorter than the frame. -/
theorem length_expand_lt {f : Bytes} (hf : f ≠ []) : (expand f).1.length < f.length := by
  -- Only the block at the very end puts down fewer bytes than it takes, and there is one.
  induction hn : f.length using Nat.strongRecOn generalizing f with
  | ind n ih =>
    cases f with
    | nil => exact absurd rfl hf
    | cons c rest =>
      rw [List.length_cons] at hn
      by_cases hlt : rest.length + 1 < c.toNat
      · rw [expand_of_lt hlt, List.length_nil]
        omega
      · rw [expand_of_le (by omega), List.length_append]
        by_cases hlast : rest.length ≤ c.toNat - 1
        · rw [List.drop_of_length_le hlast, expand_nil, length_chunk_last hlast, List.length_nil]
          omega
        · have hlen : (rest.drop (c.toNat - 1)).length = rest.length - (c.toNat - 1) :=
            List.length_drop
          have hne : rest.drop (c.toNat - 1) ≠ [] := by
            rw [← List.length_pos_iff]
            omega
          have hrest := ih _ (by omega) hne rfl
          have hchunk := length_chunk_le c rest
          omega

section
variable {b rest : Bytes} {c : UInt8} {source target : Nat}

theorem unpackFrom_end (b : Bytes) (target : Nat) :
    unpackFrom b.length b.length target b = (.ok (target - 1), b) := by
  rw [unpackFrom, if_neg (Nat.lt_irrefl _), Attempt.pure_run]

theorem unpackFrom_of_lt (hb : b.drop source = c :: rest) (h : rest.length + 1 < c.toNat) :
    unpackFrom b.length source target b = (.error .truncatedFrame, b) := by
  have hlen := length_of_drop_eq_cons hb
  rw [unpackFrom, if_pos (by omega), Attempt.bind_ok (byteAt_eq (getElem?_of_drop_eq_cons hb)),
    if_pos ⟨by omega, ne_one_of_lt h⟩]
  rfl

theorem unpackFrom_step (hb : b.drop source = c :: rest) (ht : target ≤ source)
    (h : c.toNat ≤ rest.length + 1) :
    unpackFrom b.length source target b =
      unpackFrom b.length (source + 1 + (c.toNat - 1)) (target + (chunk c rest).length)
        (patch b target (chunk c rest)) := by
  have hlen := length_of_drop_eq_cons hb
  have hrun : (rest.take (c.toNat - 1)).length = c.toNat - 1 := by
    rw [List.length_take, Nat.min_eq_left (by omega)]
  have hmove : move (source + 1) (c.toNat - 1) target b =
      (.ok (), patch b target (rest.take (c.toNat - 1))) := by
    rw [move_eq (by omega) (by omega), drop_succ_of_drop_eq_cons hb]
  rw [unpackFrom, if_pos (by omega), Attempt.bind_ok (byteAt_eq (getElem?_of_drop_eq_cons hb)),
    if_neg (by omega), Attempt.bind_ok hmove]
  by_cases hz : c.toNat ≠ fullCode ∧ c.toNat - 1 < rest.length
  · have hchunk : chunk c rest = rest.take (c.toNat - 1) ++ [terminator] := by
      rw [chunk, if_pos hz]
    have hwrite : write (target + (c.toNat - 1)) [terminator]
        (patch b target (rest.take (c.toNat - 1))) = (.ok (), patch b target (chunk c rest)) := by
      have hroom : target + (c.toNat - 1) + [terminator].length ≤
          (patch b target (rest.take (c.toNat - 1))).length := by
        rw [length_patch (by omega), List.length_singleton]
        omega
      rw [write_eq hroom, hchunk, ← patch_patch (by omega), hrun]
    rw [if_pos (by omega), Attempt.bind_ok hwrite, hchunk, List.length_append, hrun,
      List.length_singleton, ← Nat.add_assoc]
  · have hchunk : chunk c rest = rest.take (c.toNat - 1) := by
      rw [chunk, if_neg hz, List.append_nil]
    rw [if_neg (by omega), hchunk, hrun]

end

/-- From any place on, unpacking agrees with expanding what is unread there. -/
theorem unpackFrom_eq {b : Bytes} {source target : Nat} (ht : target ≤ source)
    (hs : source ≤ b.length) :
    unpackFrom b.length source target b =
      (if (expand (b.drop source)).2 then .ok (target + (expand (b.drop source)).1.length - 1)
        else .error .truncatedFrame,
      patch b target (expand (b.drop source)).1) := by
  -- The unread part gets shorter with each block; the buffer keeps its length.
  induction hn : b.length - source using Nat.strongRecOn generalizing b source target with
  | ind n ih =>
    cases hb : b.drop source with
    | nil =>
      have hend : source = b.length := by
        have := List.drop_eq_nil_iff.1 hb
        omega
      rw [hend, unpackFrom_end, expand_nil, patch_nil]
      rfl
    | cons c rest =>
      have hlen := length_of_drop_eq_cons hb
      by_cases h : rest.length + 1 < c.toNat
      · rw [unpackFrom_of_lt hb h, expand_of_lt h, patch_nil]
        rfl
      · have hle := length_chunk_le c rest
        have hfit : target + (chunk c rest).length ≤ source + 1 + (c.toNat - 1) := by omega
        have hroom : target + (chunk c rest).length ≤ b.length := by omega
        have hdrop : (patch b target (chunk c rest)).drop (source + 1 + (c.toNat - 1)) =
            rest.drop (c.toNat - 1) := by
          rw [drop_patch hroom hfit, ← List.drop_drop, drop_succ_of_drop_eq_cons hb]
        have hkeep := length_patch hroom
        have hrec := ih (b.length - (source + 1 + (c.toNat - 1))) (by omega)
          (b := patch b target (chunk c rest)) hfit (by omega) (by rw [hkeep])
        rw [hkeep, hdrop] at hrec
        rw [unpackFrom_step hb ht (by omega), hrec, expand_of_le (by omega), patch_patch hroom,
          List.length_append, Nat.add_assoc]

section
variable {f : Bytes}

theorem unpackHere_of_closed (h : Closed f) :
    unpackHere f =
      (if (expand f).2 then .ok ((expand f).1.length - 1) else .error .truncatedFrame,
      patch f 0 (expand f).1) := by
  have hf : f ≠ [] := by
    rintro rfl
    exact absurd h.1 (by decide)
  have hfrom := unpackFrom_eq (b := f) (Nat.le_refl 0) (Nat.zero_le _)
  rw [List.drop_zero, Nat.zero_add] at hfrom
  rw [unpackHere, Attempt.bind_ok (Attempt.get_run f), if_neg hf, if_pos h, hfrom]

theorem unpackHere_of_not_closed (hf : f ≠ []) (h : ¬ Closed f) :
    unpackHere f = (.error .truncatedFrame, f) := by
  rw [unpackHere, Attempt.bind_ok (Attempt.get_run f), if_neg hf, if_neg h]
  rfl

theorem unpack_of_closed (h : Closed f) :
    unpack f = if (expand f).2 then .ok (expand f).1.dropLast else .error .truncatedFrame := by
  rw [unpack, unpackHere_of_closed h]
  cases (expand f).2 with
  | false => rfl
  | true =>
    have htake : (patch f 0 (expand f).1).take ((expand f).1.length - 1) =
        (expand f).1.dropLast := by
      rw [patch, List.take_zero, List.nil_append, List.take_append_of_le_length (by omega),
        List.dropLast_eq_take]
    exact congrArg Except.ok htake

theorem unpack_of_not_closed (hf : f ≠ []) (h : ¬ Closed f) :
    unpack f = .error .truncatedFrame := by
  rw [unpack, unpackHere_of_not_closed hf h]

/-- The text lies over the front of the buffer, and what was behind is left. -/
theorem unpackHere_eq_expand (h : f = [] ∨ Closed f) :
    unpackHere f =
      (if (expand f).2 then .ok ((expand f).1.length - 1) else .error .truncatedFrame,
      (expand f).1 ++ f.drop (expand f).1.length) := by
  cases h with
  | inl h =>
    rw [h, expand_nil]
    rfl
  | inr h => rw [unpackHere_of_closed h, patch, List.take_zero, List.nil_append, Nat.zero_add]

/-- No access is out of bounds, for that would be another fault. -/
theorem eq_truncatedFrame_of_unpackHere {e : Fault} (h : (unpackHere f).1 = .error e) :
    e = .truncatedFrame := by
  by_cases hf : f = [] ∨ Closed f
  · rw [unpackHere_eq_expand hf] at h
    dsimp only at h
    split at h
    · cases h
    · cases h
      rfl
  · rw [not_or] at hf
    rw [unpackHere_of_not_closed hf.1 hf.2] at h
    cases h
    rfl

theorem eq_of_unpackHere {n : Nat} (h : (unpackHere f).1 = .ok n) :
    n = (expand f).1.length - 1 := by
  by_cases hf : f = [] ∨ Closed f
  · rw [unpackHere_eq_expand hf] at h
    dsimp only at h
    split at h
    · cases h
      rfl
    · cases h
  · rw [not_or] at hf
    rw [unpackHere_of_not_closed hf.1 hf.2] at h
    cases h

theorem le_of_unpackHere {n : Nat} (h : (unpackHere f).1 = .ok n) (hlen : 2 ≤ f.length) :
    n ≤ f.length - 2 := by
  have hne : f ≠ [] := by
    rw [← List.length_pos_iff]
    omega
  have hlt := length_expand_lt hne
  rw [eq_of_unpackHere h]
  omega

end

/-- Unpacking in place is reading into another place. The only fault is a truncated frame, so no
access is out of bounds. A buffer that is no frame stays as it is. In any other the text, as far as
it can be read, comes to lie over the front, with all behind it as it was; the frame is refused
exactly if the text is not complete, and the payload is the text without its last byte, which makes
it at least two bytes shorter than a frame that has two. -/
theorem unpackHere_refines_expand (f : Bytes) :
    (∀ e, (unpackHere f).1 = .error e → e = .truncatedFrame) ∧
      (f ≠ [] → ¬ Closed f → unpackHere f = (.error .truncatedFrame, f)) ∧
      (f = [] ∨ Closed f → unpackHere f =
        (if (expand f).2 then .ok ((expand f).1.length - 1) else .error .truncatedFrame,
          (expand f).1 ++ f.drop (expand f).1.length)) ∧
      ∀ n, (unpackHere f).1 = .ok n → 2 ≤ f.length → n ≤ f.length - 2 := by
  refine ⟨?_, unpackHere_of_not_closed, unpackHere_eq_expand, ?_⟩
  · intro e he
    exact eq_truncatedFrame_of_unpackHere he
  · intro n hn hlen
    exact le_of_unpackHere hn hlen

/-- The first block has moved when the second turns out to reach too far. -/
example : unpackHere [2, 7, 5, 1, 0] = (.error .truncatedFrame, [7, 0, 5, 1, 0]) := by
  cbv

end Bytewire.Frame
