import Bytewire.Bytes.Buffer

/-! A buffer after bytes have been put over a part of it, and the buffer operations as patches. -/
namespace Bytewire

def patch (b : Bytes) (start : Nat) (new : Bytes) : Bytes :=
  b.take start ++ new ++ b.drop (start + new.length)

variable {b new u v : Bytes} {start i j n : Nat}

theorem patch_nil (b : Bytes) (i : Nat) : patch b i [] = b := by
  rw [patch, List.append_nil, List.length_nil, Nat.add_zero, List.take_append_drop]

theorem length_patch (h : start + new.length ≤ b.length) :
    (patch b start new).length = b.length := by
  simp only [patch, List.length_append, List.length_take, List.length_drop]
  omega

theorem take_patch (h : start ≤ b.length) :
    (patch b start new).take (start + new.length) = b.take start ++ new := by
  have hlen : (b.take start ++ new).length = start + new.length := by
    rw [List.length_append, List.length_take, Nat.min_eq_left h]
  rw [patch, ← hlen, List.take_left']
  rfl

theorem drop_patch (h : start + new.length ≤ b.length) (hj : start + new.length ≤ j) :
    (patch b start new).drop j = b.drop j := by
  have hlen : (b.take start ++ new).length = start + new.length := by
    rw [List.length_append, List.length_take, Nat.min_eq_left (by omega)]
  rw [patch, List.drop_append, List.drop_of_length_le (by omega), List.nil_append, hlen,
    List.drop_drop, Nat.add_sub_cancel' hj]

/-- What a second patch behind the first one puts down could have been put down with it. -/
theorem patch_patch (h : start + u.length ≤ b.length) :
    patch (patch b start u) (start + u.length) v = patch b start (u ++ v) := by
  rw [patch, take_patch (by omega), drop_patch h (by omega), patch, List.length_append,
    Nat.add_assoc, List.append_assoc (b.take start)]

theorem patch_append_cons (u : Bytes) (x y : UInt8) (v : Bytes) :
    patch (u ++ x :: v) u.length [y] = u ++ y :: v := by
  simp [patch]

theorem patch_append_drop {out : Bytes} (hu : u.length = i) (h : i < out.length) (y : UInt8) :
    patch (u ++ out.drop i) i [y] = u ++ y :: out.drop (i + 1) := by
  subst hu
  rw [List.drop_eq_getElem_cons h, patch_append_cons]

section
variable {c : UInt8} {rest : Bytes}

theorem getElem?_of_drop_eq_cons (h : b.drop i = c :: rest) : b[i]? = some c := by
  rw [← Nat.add_zero i, ← List.getElem?_drop, h, List.getElem?_cons_zero]

theorem length_of_drop_eq_cons (h : b.drop i = c :: rest) : b.length = i + (rest.length + 1) := by
  have hlen : b.length - i = rest.length + 1 := by rw [← List.length_drop, h, List.length_cons]
  omega

theorem drop_succ_of_drop_eq_cons (h : b.drop i = c :: rest) : b.drop (i + 1) = rest := by
  rw [← List.drop_drop, h, List.drop_one, List.tail_cons]

end

namespace Buffer

theorem byteAt_eq {x : UInt8} (h : b[i]? = some x) : byteAt i b = (.ok x, b) := by
  rw [byteAt, h]

theorem write_eq (h : start + new.length ≤ b.length) :
    write start new b = (.ok (), patch b start new) := by
  rw [write, overwrite_eq h, patch]

theorem put_eq (hn : n < 256) (hi : i < b.length) :
    put i n b = (.ok (), patch b i [UInt8.ofNat n]) := by
  rw [put, if_pos hn]
  exact write_eq hi

theorem move_eq (hs : i + n ≤ b.length) (ht : j ≤ i) :
    move i n j b = (.ok (), patch b j ((b.drop i).take n)) := by
  have hread : read i (i + n) b = (.ok ((b.drop i).take n), b) := by
    rw [read, slice_eq (by omega) hs, List.drop_take, Nat.add_sub_cancel_left]
  have hlen : ((b.drop i).take n).length = n := by
    rw [List.length_take, List.length_drop, Nat.min_eq_left (by omega)]
  rw [move, Attempt.bind_ok hread]
  exact write_eq (by omega)

end Buffer
end Bytewire
