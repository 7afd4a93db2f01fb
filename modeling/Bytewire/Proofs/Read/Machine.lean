import Bytewire.Bytes.Lemmas
import Bytewire.Read.Machine

/-! The machine does what the session does: in every query each piece is there, each difference is
a number, and no shift is too far, whatever state it is asked in. -/
namespace Bytewire

namespace Machine
variable {σ α β : Type} {bits shift room : Nat}

theorem run_bind (x : Attempt σ α) (f : α → Attempt σ β) :
    run (x >>= f) = run x >>= fun a => run (f a) := by
  funext s
  change some ((x >>= f) s) = _
  rw [Attempt.bind_run]
  rcases hx : x s with ⟨_ | a, t⟩ <;> simp [Bind.bind, run, hx]

theorem piece_eq {b : Bytes} {start stop : Nat} (h : start ≤ stop) (hs : stop ≤ b.length) :
    piece b start stop = some ((b.take stop).drop start) := by
  rw [piece, slice_eq h hs]
  rfl

theorem sub_eq {m n : Nat} (h : n ≤ m) : sub m n = some (m - n) := if_pos h

theorem add_eq {m n : Nat} (h : m + n ≤ maxWord) : add m n = some (m + n) := if_pos h

theorem shiftLeft_eq {v : BitVec bits} {n : Nat} (h : n < bits) :
    shiftLeft v n = some (v <<< n) := if_pos h

theorem bind_ok {x : Machine σ α} {s t : σ} {a : α} (h : x s = some (.ok a, t))
    (f : α → Machine σ β) : (x >>= f) s = f a t := by
  simp [Bind.bind, h]

theorem bind_error {x : Machine σ α} {s t : σ} {e : Fault} (h : x s = some (.error e, t))
    (f : α → Machine σ β) : (x >>= f) s = some (.error e, t) := by
  simp [Bind.bind, h]

/-- What the machine does in steps it does as a whole, where no step stops. -/
theorem bind_eq_some {y : Machine σ α} {x : Attempt σ α} {g : α → Machine σ β}
    {f : α → Attempt σ β} {s : σ} (h : y s = some (x s))
    (hf : ∀ a t, x s = (.ok a, t) → g a t = some (f a t)) :
    (y >>= g) s = some ((x >>= f) s) := by
  cases hx : x s with
  | mk r t =>
    rw [hx] at h
    cases r with
    | ok a => rw [bind_ok h, Attempt.bind_ok hx, hf a t hx]
    | error e => rw [bind_error h, Attempt.bind_error hx]

theorem bind_pure_eq_map (x : Machine σ α) (f : α → β) (s : σ) :
    (do return f (← x) : Machine σ β) s = (x s).map fun r => (r.1.map f, r.2) := by
  change (x >>= fun a => pure (f a)) s = _
  rcases h : x s with _ | ⟨_ | a, t⟩ <;> simp [Bind.bind, Pure.pure, h, Except.map]

theorem need_some (a : α) (s : σ) : need (some a) s = some (.ok a, s) := rfl

/-- What is required before the cut makes it one that is in bounds. -/
theorem take_eq_run (n : Nat) : take n = run (Unread.take n) := by
  funext b
  have hget : run .get b = some (.ok b, b) := rfl
  rw [take, bind_ok hget, run, Unread.take_eq]
  by_cases h : b.length < n
  · have hrequire : run (.lift (Unread.require n b)) b = some (.error .endOfInput, b) := by
      rw [run, Attempt.lift, Unread.require, if_pos h]
    rw [bind_error hrequire, if_pos h]
  · have hn : n ≤ b.length := Nat.le_of_not_lt h
    have hrequire : run (.lift (Unread.require n b)) b = some (.ok (), b) := by
      rw [run, Attempt.lift, Unread.require, if_neg h]
    have hfront : need (piece b 0 n) b = some (.ok (b.take n), b) := by
      rw [piece_eq (Nat.zero_le n) hn, need_some, List.drop_zero]
    have hback : need (piece b n b.length) b = some (.ok (b.drop n), b) := by
      rw [piece_eq hn (Nat.le_refl _), need_some, List.take_length]
    rw [bind_ok hrequire, bind_ok hfront, bind_ok hback, if_neg h]
    rfl

theorem toNat_width (bits : Nat) : (bits : BitVec bits).toNat = bits := by
  rw [BitVec.natCast_eq_ofNat, BitVec.toNat_ofNat, Nat.mod_eq_of_lt Nat.lt_two_pow_self]

/-- The bits of a word below its leading zeros. -/
theorem sub_clz (v : BitVec bits) :
    sub bits v.clz.toNat = some (Base128.bitLength v.toNat) := by
  have hle : v.clz.toNat ≤ bits := by
    have h := BitVec.le_def.1 (BitVec.clz_le (x := v))
    rwa [toNat_width] at h
  have hlt : v.toNat < 2 ^ (bits - v.clz.toNat) := BitVec.toNat_lt_two_pow_sub_clz
  have hbits := Base128.bitLength_le_iff_lt_pow.2 hlt
  rw [sub_eq hle]
  by_cases hv : v = 0
  · have hzero : v.clz.toNat = bits := by
      rw [BitVec.clz_eq_iff_eq_zero.2 hv, toNat_width]
    exact congrArg some (by omega)
  · have hless : v.clz.toNat < bits := by
      have h := BitVec.lt_def.1 (BitVec.clz_lt_iff_ne_zero.2 hv)
      rwa [toNat_width] at h
    have hge : 2 ^ (bits - 1 - v.clz.toNat) ≤ v.toNat :=
      BitVec.two_pow_sub_clz_le_toNat_of_ne_zero (by omega) hv
    have hmore : ¬ Base128.bitLength v.toNat ≤ bits - 1 - v.clz.toNat := by
      rw [Base128.bitLength_le_iff_lt_pow]
      omega
    exact congrArg some (by omega)

theorem sub_leadingZeros (x : UInt8) :
    sub 8 (leadingZeros x) = some (Base128.bitLength x.toNat) := sub_clz x.toBitVec

theorem overflows_eq (room : Nat) (x : UInt8) :
    overflows room x = some (decide (room ≤ 7 ∧ room < Base128.bitLength x.toNat)) := by
  rw [overflows, sub_leadingZeros]
  by_cases h : room ≤ 7 <;> simp [h]

theorem and_low (x : UInt8) : (x &&& 0x7f).toNat = x.toNat % 128 := by
  rw [UInt8.toNat_and]
  exact Nat.and_two_pow_sub_one_eq_mod x.toNat 7

theorem and_high_eq_zero_iff (x : UInt8) : x &&& 0x80 = 0 ↔ x.toNat < 128 := by
  have hall : ∀ n < 256, n &&& 128 = 0 ↔ n < 128 := by decide +kernel
  rw [← hall x.toNat x.toNat_lt, ← UInt8.toNat_inj, UInt8.toNat_and]
  rfl

theorem group_lt {x : UInt8} (h : ¬ (room ≤ 7 ∧ room < Base128.bitLength x.toNat)) :
    x.toNat % 128 < 2 ^ room := by
  by_cases hroom : room ≤ 7
  · have hx : x.toNat < 2 ^ room := Base128.bitLength_le_iff_lt_pow.1 (by omega)
    omega
  · have hpow : 2 ^ 7 ≤ 2 ^ room := Nat.pow_le_pow_right (by decide) (by omega)
    omega

theorem shiftLeft_lt {m : Nat} (h : shift ≤ bits) (hm : m < 2 ^ (bits - shift)) :
    m <<< shift < 2 ^ bits := by
  rw [Nat.shiftLeft_eq, show bits = bits - shift + shift by omega, Nat.pow_add]
  exact Nat.mul_lt_mul_of_pos_right hm (Nat.two_pow_pos shift)

theorem add_group_lt {n m : Nat} (hn : n < 2 ^ shift) (hm : m < 128) :
    n + m <<< shift < 2 ^ (shift + 7) := by
  have hle : m * 2 ^ shift ≤ 127 * 2 ^ shift := Nat.mul_le_mul_right _ (Nat.le_of_lt_succ hm)
  rw [Nat.shiftLeft_eq, Nat.pow_add]
  omega

/-- A group goes into bits that are not yet filled. -/
theorem toNat_or_group {acc : BitVec bits} {m : Nat} (hacc : acc.toNat < 2 ^ shift)
    (hm : m <<< shift < 2 ^ bits) :
    (acc ||| BitVec.ofNat bits m <<< shift).toNat = acc.toNat + m <<< shift := by
  have hle : m ≤ m <<< shift := by
    rw [Nat.shiftLeft_eq]
    exact Nat.le_mul_of_pos_right m (Nat.two_pow_pos shift)
  have hmod : m % 2 ^ bits = m := Nat.mod_eq_of_lt (by omega)
  rw [BitVec.toNat_or, BitVec.toNat_shiftLeft, BitVec.toNat_ofNat, hmod, Nat.mod_eq_of_lt hm,
    Nat.or_comm, ← Nat.shiftLeft_add_eq_or_of_lt hacc, Nat.add_comm]

theorem shiftLeft_add_group (m n shift : Nat) :
    m <<< shift + n <<< (shift + 7) = (m + 128 * n) <<< shift := by
  have hn : n * (2 ^ shift * 128) = 128 * n * 2 ^ shift := by ac_rfl
  rw [Nat.shiftLeft_eq, Nat.shiftLeft_eq, Nat.shiftLeft_eq, Nat.pow_add, Nat.add_mul, ← hn]

/-- From any group on, the machine reads what is read in what is left of the width, and adds it to
what it has. -/
theorem groups_eq {acc : BitVec bits} (h : shift < bits) (hbits : bits ≤ 64)
    (hacc : acc.toNat < 2 ^ shift) (b : Bytes) :
    (groups bits shift acc b).map (fun r => (r.1.map BitVec.toNat, r.2)) =
      some ((Base128.decode (bits - shift) b).1.map (fun n => acc.toNat + n <<< shift),
        (Base128.decode (bits - shift) b).2) := by
  induction b generalizing shift acc with
  | nil => rfl
  | cons x xs ih =>
    rw [groups, sub_eq (Nat.le_of_lt h), Base128.decode]
    simp only [Option.bind_eq_bind, Option.bind_some, overflows_eq, decide_eq_true_eq]
    by_cases hover : bits - shift ≤ 7 ∧ bits - shift < Base128.bitLength x.toNat
    · simp [hover, Except.map]
    · have hacc' := toNat_or_group hacc (shiftLeft_lt (Nat.le_of_lt h) (group_lt hover))
      rw [if_neg hover, if_neg hover, shiftLeft_eq h, Option.bind_some, and_low]
      by_cases hlast : x.toNat < 128
      · rw [if_pos ((and_high_eq_zero_iff x).2 hlast), if_pos hlast, Nat.mod_eq_of_lt hlast] at *
        simp [Except.map, hacc']
      · -- a byte with a group behind it has eight bits, and so more than seven are left
        have hb : ¬ Base128.bitLength x.toNat ≤ 7 :=
          fun hb => hlast (Base128.bitLength_le_seven.1 hb)
        have hroom : shift + 7 < bits := by omega
        have hnext : (acc ||| BitVec.ofNat bits (x.toNat % 128) <<< shift).toNat <
            2 ^ (shift + 7) := by
          rw [hacc']
          exact add_group_lt hacc (Nat.mod_lt _ (by decide))
        have hmax : shift + 7 ≤ maxWord := Nat.le_trans (Nat.le_of_lt hroom)
          (Nat.le_trans hbits (by decide))
        rw [if_neg (fun h => hlast ((and_high_eq_zero_iff x).1 h)), if_neg hlast, add_eq hmax,
          Option.bind_some, ih hroom hnext, hacc', Nat.sub_add_eq]
        rcases Base128.decode (bits - shift - 7) xs with ⟨_ | n, c⟩
        · rfl
        · simp [Except.map, Nat.add_assoc, shiftLeft_add_group]

/-- No shift is too far, and the groups are put together to the number they stand for. -/
theorem number_eq_run (h : 0 < bits) (hbits : bits ≤ 64) :
    number bits = run (Base128.decode bits) := by
  funext b
  rw [number, bind_pure_eq_map, groups_eq h hbits (by simp), run, Nat.sub_zero]
  rcases Base128.decode bits b with ⟨_ | n, c⟩ <;> simp [Except.map]

theorem readLength_eq_run (l : Layout) : readLength l = run l.readLength := by
  rw [readLength, Layout.readLength]
  cases l.coding with
  | fixed => rw [take_eq_run, run_bind]; rfl
  | compact => rw [number_eq_run (by decide) (by decide), run_bind]; rfl

theorem readVariant_eq_run (l : Layout) : readVariant l = run l.readVariant := by
  rw [readVariant, Layout.readVariant]
  cases l.coding with
  | fixed => rw [take_eq_run, run_bind]; rfl
  | compact => rw [number_eq_run (by decide) (by decide), run_bind]; rfl

theorem onBytes_run (x : Attempt Bytes α) : onBytes (run x) = run (Session.onBytes x) := rfl

theorem enter_eq_run : enter = run Session.enter := by
  funext s
  have hget : run .get s = some (.ok s, s) := rfl
  rw [enter, bind_ok hget, run, Session.enter]
  by_cases h : s.budget = 0
  · rw [if_pos h, if_pos h]
    rfl
  · have hneed : need (sub s.budget 1) s = some (.ok (s.budget - 1), s) := by
      rw [sub_eq (Nat.pos_of_ne_zero h), need_some]
    rw [if_neg h, if_neg h, bind_ok hneed]
    rfl

theorem word_eq_run (w : Width) : word w = run (Read.word w) := by
  rw [word, take_eq_run, onBytes_run, Read.word, run_bind]
  rfl

theorem flag_eq_run : flag = run Read.flag := by
  rw [flag, word_eq_run, Read.flag, run_bind]
  congr 1
  funext b
  split
  · rfl
  · split <;> rfl

theorem length_eq_run (src : Read.Source) : length src = run (Read.length src) := by
  rw [length, readLength_eq_run, onBytes_run, Read.length, run_bind]
  congr 1
  funext n
  split <;> rfl

theorem counted_eq_run (src : Read.Source) : counted src = run (Read.counted src) := by
  rw [counted, length_eq_run, Read.counted, run_bind]
  congr 1
  funext n
  rw [take_eq_run, onBytes_run]

end Machine

theorem Read.Query.machine_eq_run (src : Read.Source) (q : Read.Query) :
    q.machine src = Machine.run (q.run src) := by
  cases q with
  | bool | tag => exact Machine.flag_eq_run
  | uint w | int w => exact Machine.word_eq_run w
  | natural | integer =>
    rw [machine, run, Machine.word_eq_run, Machine.run_bind]
    rfl
  | text =>
    rw [machine, run, Machine.counted_eq_run, Machine.run_bind]
  | bytes => exact Machine.counted_eq_run src
  | length => exact Machine.length_eq_run src
  | variant => rw [machine, run, Machine.readVariant_eq_run, Machine.onBytes_run]
  | enter => exact Machine.enter_eq_run
  | _ => rfl

end Bytewire
