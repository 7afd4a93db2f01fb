import Bytewire.Write.Script

/-! A writer adds only behind what it has written. A command puts down the same bytes wherever it is
run, and one that is refused changes nothing, so that a run of commands, refused ones among them,
writes what each of them writes by itself, one after another. -/
namespace Bytewire

theorem Layout.lengthBytes_eq_error_iff {l : Layout} {n : Nat} {e : Fault} :
    l.lengthBytes n = .error e ↔
      l.coding = .compact ∧ maxCompactLength < n ∧ e = .lengthOverflow n := by
  cases hc : l.coding with
  | fixed => simp [lengthBytes, hc]
  | compact =>
    by_cases h : n ≤ maxCompactLength
    · simp [lengthBytes, hc, h, Nat.not_lt_of_le h]
    · simp [lengthBytes, hc, h, Nat.lt_of_not_le h, eq_comm]

namespace Write
open Session
variable {l : Layout} {x : Attempt Session Unit} {new : Bytes} {s : Session} {c : Command}
  {cs : List Command} {e : Fault}

def Command.Appending : Command → Prop
  | .sort _ => False
  | _ => True

def Command.alone (l : Layout) (lim : Limits) (c : Command) : Bytes :=
  (c.run l (.start lim [])).2.bytes

def written (l : Layout) (cs : List Command) (s : Session) : Session :=
  (perform l (cs.map .command) s).2

def Command.lengthField : Command → Option Nat
  | .length n => some n
  | .text s => some (Text.encode s).length
  | .bytes b => some b.length
  | _ => none

inductive Command.Refused (l : Layout) (budget : Nat) : Command → Fault → Prop where
  | length {c : Command} {n : Nat} (field : c.lengthField = some n) (coding : l.coding = .compact)
    (above : Layout.maxCompactLength < n) : Refused l budget c (.lengthOverflow n)
  | natural {n : Nat} (above : maxNatural < n) : Refused l budget (.natural n) (.outOfRange false)
  | integer {z : Int} (outside : z < -maxInteger - 1 ∨ maxInteger < z) :
    Refused l budget (.integer z) (.outOfRange true)
  | unencodable (k : Unencodable) : Refused l budget (.unencodable k) (.unencodable .write k)
  | enter (exhausted : budget = 0) : Refused l budget .enter .depthExceeded

/-- Puts bytes behind those that are there, whatever they are, or is refused, wherever it is run. -/
def Emits (x : Attempt Session Unit) (r : Except Fault Bytes) : Prop :=
  ∀ s, x s = match r with
    | .ok new => (.ok (), { s with bytes := s.bytes ++ new })
    | .error e => (.error e, s)

namespace Emits

theorem nothing : Emits (pure ()) (.ok []) := by
  intro s
  rw [Attempt.pure_run]
  simp

theorem emit (new : Bytes) : Emits (emit new) (.ok new) := fun _ => rfl

theorem word {w : Width} (v : Word w) :
    Emits (word v) (.ok (LittleEndian.encode w.bytes v.toNat)) := fun _ => rfl

theorem fail (e : Fault) : Emits (.fail e) (.error e) := fun _ => rfl

theorem guarded {p : Prop} [Decidable p] (h : Emits x (.ok new)) (e : Fault) :
    Emits (if p then x else .fail e) (if p then .ok new else .error e) := by
  split
  · exact h
  · exact fail e

theorem length (l : Layout) (n : Nat) : Emits (length l n) (l.lengthBytes n) := by
  intro s
  rw [Write.length, Attempt.bind_run, Attempt.lift]
  cases l.lengthBytes n with
  | ok d => rfl
  | error e => rfl

/-- The length is refused before anything is written. -/
theorem counted (l : Layout) (b : Bytes) :
    Emits (counted l b) ((l.lengthBytes b.length).map (· ++ b)) := by
  intro s
  rw [Write.counted, Attempt.bind_run, length l b.length s]
  cases l.lengthBytes b.length with
  | ok d => simp [Except.map, Session.emit]
  | error e => rfl

theorem error_iff {r : Except Fault Bytes} (h : Emits x r) (s : Session) :
    (x s).1 = .error e ↔ r = .error e := by
  rw [h s]
  cases r with
  | ok new => simp
  | error d => simp

end Emits

structure Appends (x : Attempt Session Unit) (new : Bytes) : Prop where
  bytes : ∀ s, (x s).2.bytes = s.bytes ++ new
  refused : ∀ s e, (x s).1 = .error e → (x s).2 = s

theorem Emits.appends {r : Except Fault Bytes} (h : Emits x r) :
    Appends x (r.toOption.getD []) := by
  cases r with
  | ok new =>
    refine ⟨fun s => by rw [h s]; rfl, fun s e he => ?_⟩
    rw [h s] at he
    cases he
  | error e => exact ⟨fun s => by rw [h s]; simp [Except.toOption], fun s _ _ => by rw [h s]⟩

theorem appends_enter : Appends enter [] where
  bytes s := by
    rw [enter, List.append_nil]
    split <;> rfl
  refused s e h := by
    rw [enter] at h ⊢
    split
    · rfl
    · rename_i hbudget
      rw [if_neg hbudget] at h
      cases h

theorem appends_leave : Appends leave [] where
  bytes s := (List.append_nil s.bytes).symm
  refused s e h := by cases h

theorem Command.exists_appends (hc : c.Appending) : ∃ new, Appends (c.run l) new := by
  cases c with
  | sort offsets => exact hc.elim
  | enter => exact ⟨_, appends_enter⟩
  | leave => exact ⟨_, appends_leave⟩
  | unit => exact ⟨_, Emits.nothing.appends⟩
  | bool b | tag b => exact ⟨_, (Emits.emit _).appends⟩
  | uint w v | int w v => exact ⟨_, (Emits.word v).appends⟩
  | natural n | integer z => exact ⟨_, ((Emits.word _).guarded _).appends⟩
  | text s => exact ⟨_, (Emits.counted l _).appends⟩
  | bytes b => exact ⟨_, (Emits.counted l b).appends⟩
  | length n => exact ⟨_, (Emits.length l n).appends⟩
  | variant i => exact ⟨_, (Emits.emit _).appends⟩
  | unencodable k => exact ⟨_, (Emits.fail _).appends⟩

/-- What a command puts down anywhere is what it writes into an empty buffer. -/
theorem Command.appends (hc : c.Appending) (lim : Limits) : Appends (c.run l) (c.alone l lim) := by
  obtain ⟨new, h⟩ := c.exists_appends (l := l) hc
  have halone : c.alone l lim = new := h.bytes (.start lim [])
  rwa [halone]

theorem counted_error_iff {b : Bytes} : (counted l b s).1 = .error e ↔
    l.coding = .compact ∧ Layout.maxCompactLength < b.length ∧ e = .lengthOverflow b.length := by
  rw [(Emits.counted l b).error_iff, ← Layout.lengthBytes_eq_error_iff]
  cases l.lengthBytes b.length with
  | ok d => simp [Except.map]
  | error e => simp [Except.map]

theorem ite_eq_error_iff {p : Prop} [Decidable p] {d : Fault} :
    ((if p then .ok new else .error d : Except Fault Bytes) = .error e) ↔ ¬ p ∧ e = d := by
  by_cases h : p
  · simp [h]
  · simp [h, eq_comm]

/-- Where the length is all that can be refused. -/
theorem Command.refused_iff_of_lengthField {n : Nat} (hn : c.lengthField = some n) (s : Session) :
    c.Refused l s.budget e ↔
      l.coding = .compact ∧ Layout.maxCompactLength < n ∧ e = .lengthOverflow n := by
  constructor
  · intro h
    cases h with
    | length hfield hcoding habove =>
      rw [hn] at hfield
      cases hfield
      exact ⟨hcoding, habove, rfl⟩
    | _ => cases hn
  · rintro ⟨hcoding, habove, rfl⟩
    exact .length hn hcoding habove

/-- A command is refused for one of these reasons and for no other. -/
theorem Command.error_iff_refused (hc : c.Appending) (s : Session) (e : Fault) :
    (c.run l s).1 = .error e ↔ c.Refused l s.budget e := by
  cases c with
  | sort offsets => exact hc.elim
  | text t => rw [refused_iff_of_lengthField rfl, ← counted_error_iff, Command.run]
  | bytes b => rw [refused_iff_of_lengthField rfl, ← counted_error_iff, Command.run]
  | length n =>
    rw [refused_iff_of_lengthField rfl, ← Layout.lengthBytes_eq_error_iff,
      ← (Emits.length l n).error_iff, Command.run]
  | enter =>
    rw [Command.run, Session.enter]
    constructor
    · intro h
      split at h
      · rename_i hbudget
        cases h
        exact .enter hbudget
      · cases h
    · intro h
      cases h with
      | length hfield => cases hfield
      | enter hbudget => rw [if_pos hbudget]
  | natural n =>
    rw [Command.run, ((Emits.word _).guarded _).error_iff, ite_eq_error_iff]
    constructor
    · rintro ⟨habove, rfl⟩
      exact .natural (Nat.lt_of_not_le habove)
    · intro h
      cases h with
      | length hfield => cases hfield
      | natural habove => exact ⟨Nat.not_le_of_lt habove, rfl⟩
  | integer z =>
    rw [Command.run, ((Emits.word _).guarded _).error_iff, ite_eq_error_iff]
    constructor
    · rintro ⟨houtside, rfl⟩
      exact .integer (by omega)
    · intro h
      cases h with
      | length hfield => cases hfield
      | integer houtside => exact ⟨by omega, rfl⟩
  | unencodable k =>
    constructor
    · rintro ⟨⟩
      exact .unencodable k
    · intro h
      cases h with
      | length hfield => cases hfield
      | unencodable => rfl
  | leave | unit | bool b | tag b | uint w v | int w v | variant i =>
    constructor
    · rintro ⟨⟩
    · intro h
      cases h with
      | length hfield => cases hfield

theorem written_append (before after : List Command) (s : Session) :
    written l (before ++ after) s = written l after (written l before s) := by
  induction before generalizing s with
  | nil => rfl
  | cons c before ih => exact ih (c.run l s).2

/-- A run writes what each of its commands writes by itself. -/
theorem bytes_written (hcs : ∀ c ∈ cs, c.Appending) (lim : Limits) (s : Session) :
    (written l cs s).bytes = s.bytes ++ cs.flatMap fun c => c.alone l lim := by
  induction cs generalizing s with
  | nil => exact (List.append_nil s.bytes).symm
  | cons c cs ih =>
    have hc := (Command.appends (l := l) (hcs c List.mem_cons_self) lim).bytes s
    have hrest := ih (fun d hd => hcs d (List.mem_cons_of_mem c hd)) (c.run l s).2
    rw [hc, List.append_assoc] at hrest
    exact hrest

/-- What a run of commands writes, refused ones passed over, is what each of them writes into an
empty buffer, one after another. At every step the bytes that are there stay, and a command that is
refused leaves all as it was. -/
theorem writing_appends (l : Layout) (lim fresh : Limits) (cs : List Command)
    (hcs : ∀ c ∈ cs, c.Appending) :
    (written l cs (.start lim [])).bytes = (cs.flatMap fun c => c.alone l fresh) ∧
    ∀ before c after, cs = before ++ c :: after →
      let s := written l before (.start lim [])
      let r := c.run l s
      written l (before ++ [c]) (.start lim []) = r.2 ∧
        r.2.bytes = s.bytes ++ c.alone l fresh ∧
        r.2.bytes <+: (written l cs (.start lim [])).bytes ∧
        (∀ e, r.1 = .error e ↔ c.Refused l s.budget e) ∧
        ∀ e, r.1 = .error e → r.2 = s := by
  refine ⟨bytes_written hcs fresh _, ?_⟩
  rintro before c after rfl
  have hc : c.Appending := hcs c (List.mem_append_right _ List.mem_cons_self)
  have happends := Command.appends (l := l) hc fresh
  refine ⟨written_append _ _ _, happends.bytes _, ?_, c.error_iff_refused hc _, happends.refused _⟩
  have hrest := bytes_written (l := l)
    (fun d hd => hcs d (List.mem_append_right before (List.mem_cons_of_mem c hd))) fresh
    (c.run l (written l before (.start lim []))).2
  rw [written_append]
  exact ⟨_, hrest.symm⟩

def interrupted : List Command :=
  [.bool true, .length 0x100000000, .enter, .enter, .text "ab", .leave]

/-- A length above 32 bits and a second container where one is allowed, with bytes before, between
and after. -/
theorem writing_appends_interrupted :
    let l : Layout := ⟨.compact, true⟩
    let lim : Limits := { depth := 1 }
    let s := written l [.bool true] (.start lim [])
    let t := written l [.bool true, .length 0x100000000, .enter] (.start lim [])
    (∀ c ∈ interrupted, c.Appending) ∧
      (written l interrupted (.start lim [])).bytes =
        (interrupted.flatMap fun c => c.alone l {}) ∧
      (Command.length 0x100000000).run l s = (.error (.lengthOverflow 0x100000000), s) ∧
      Command.enter.run l t = (.error .depthExceeded, t) ∧
      t.bytes <+: (written l interrupted (.start lim [])).bytes := by
  intro l lim s t
  have hcs : ∀ c ∈ interrupted, c.Appending := by simp [interrupted, Command.Appending]
  obtain ⟨hbytes, hsteps⟩ := writing_appends l lim {} interrupted hcs
  obtain ⟨-, -, -, hlength, hkept⟩ := hsteps [.bool true] (.length 0x100000000) _ rfl
  obtain ⟨-, -, hbegins, henter, hsame⟩ :=
    hsteps [.bool true, .length 0x100000000, .enter] .enter _ rfl
  have hoverflow := (hlength _).2 (.length rfl rfl (by decide))
  have hexceeded := (henter _).2 (.enter (by decide))
  rw [hsame _ hexceeded] at hbegins
  exact ⟨hcs, hbytes, Prod.ext hoverflow (hkept _ hoverflow),
    Prod.ext hexceeded (hsame _ hexceeded), hbegins⟩

end Write
end Bytewire
