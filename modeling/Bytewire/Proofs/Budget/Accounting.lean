import Bytewire.Proofs.Budget.Watching
import Bytewire.Proofs.Read.Steps

/-! The budget of a session over whole runs, writing and reading. -/
namespace Bytewire

namespace Read
variable (src : Source)

theorem steps_quiet : Steps fun _ x => Quiet x where
  pure := Quiet.pure
  fail := Quiet.fail
  bind := Quiet.bind
  take _ := Quiet.onBytes _
  base128 _ := Quiet.onBytes _

theorem Query.quiet {q : Query} (henter : q ≠ .enter) (hleave : q ≠ .leave) :
    Quiet (q.run src) := by
  cases q with
  | enter => exact absurd rfl henter
  | leave => exact absurd rfl hleave
  | remaining => exact Quiet.get.bind fun _ => Quiet.pure _
  | finish =>
    refine Quiet.get.bind fun s => ?_
    dsimp only
    split
    · exact Quiet.pure _
    · exact Quiet.fail _
  | _ => exact steps_quiet.query src trivial

theorem Query.shows (q : Query) : Watch.Shows (q.watch src) (q.run src) := by
  cases q with
  | enter => exact .enter
  | leave => exact .leave
  | _ => exact .step (Query.quiet src (by simp) (by simp))

theorem Program.shows {α : Type} (p : Program α) : Watch.Shows (p.watch src) (p.run src) := by
  induction p with
  | done a => exact .pure a
  | ask q => exact q.shows src
  | fail e => exact .fail e
  | andThen p k ihp ihk => exact ihp.bind ihk
  | container p ih => exact ih.container
  | capture p ih => exact ih.capture

end Read

namespace Write
variable (l : Layout)

theorem quiet_length (n : Nat) : Quiet (length l n) :=
  (Quiet.lift _).bind fun _ => Quiet.emit _

theorem quiet_counted (b : Bytes) : Quiet (counted l b) :=
  (quiet_length l b.length).bind fun _ => Quiet.emit b

theorem Command.shows (c : Command) : Watch.Shows (c.watch l) (c.run l) := by
  cases c with
  | enter => exact .enter
  | leave => exact .leave
  | unit => exact .step (Quiet.pure _)
  | bool b | tag b => exact .step (Quiet.emit _)
  | uint w v | int w v => exact .step (Quiet.emit _)
  | natural n =>
    refine .step ?_
    rw [Command.run]
    split
    · exact Quiet.emit _
    · exact Quiet.fail _
  | integer z =>
    refine .step ?_
    rw [Command.run]
    split
    · exact Quiet.emit _
    · exact Quiet.fail _
  | text s => exact .step (quiet_counted l _)
  | bytes b => exact .step (quiet_counted l b)
  | length n => exact .step (quiet_length l n)
  | variant i => exact .step (Quiet.emit _)
  | unencodable k => exact .step (Quiet.fail _)
  | sort offsets => exact .step (Quiet.onBytes _)

theorem chain_shows (n : Nat) : Watch.Shows (watchChain l n) (chain l n) := by
  induction n with
  | zero => exact .pure ()
  | succ n ih =>
    refine Watch.Shows.container ?_
    refine (Watch.Shows.step (Quiet.emit _)).bind fun _ => ?_
    exact (Watch.Shows.step (quiet_length l _)).bind fun _ => ih

theorem length_watchEach (es : List (List Script)) :
    (watchEach l es).length = (runEach l es).length := by
  induction es with
  | nil => rfl
  | cons e es ih => rw [watchEach, runEach, List.length_cons, List.length_cons, ih]

mutual
theorem Script.shows : (x : Script) → Watch.Shows (x.watch l) (x.run l)
  | .command c => by
    rw [Script.watch, Script.run]
    exact c.shows l
  | .container body => by
    rw [Script.watch, Script.run]
    exact (all_shows body).container
  | .map entries => by
    rw [Script.watch, Script.run, watchMap, length_watchEach]
    refine Watch.Shows.container ?_
    refine (Watch.Shows.step (quiet_length l _)).bind fun _ => ?_
    exact (offsets_shows entries).bind fun os => Command.shows l (.sort os)
  | .chain n => by
    rw [Script.watch, Script.run]
    exact chain_shows l n
theorem all_shows : (xs : List Script) → Watch.Shows (watchAll l xs) (runAll l xs)
  | [] => .pure ()
  | x :: xs => by
    rw [watchAll, runAll]
    exact x.shows.bind fun _ => all_shows xs
theorem offsets_shows : (es : List (List Script)) →
    Watch.Shows (watchOffsets (watchEach l es)) (offsets (runEach l es))
  | [] => .pure []
  | e :: es => by
    refine Watch.Shows.bind_get fun w => ?_
    refine (all_shows e).bind fun _ => ?_
    exact (offsets_shows es).bind fun _ => .pure _
end

end Write

namespace Watch
variable {D : Nat} {w : Watch}

theorem Consistent.accounted (h : Consistent D w) : w.Accounted D := by
  have hfull (hp : w.Paired) (m : Moment) (hm : m ∈ w.moments) :
      m.session.budget = 0 ↔ m.opened = D := by
    have hsum := h.balanced hp m hm
    omega
  refine ⟨fun hp m hm => ?_, fun hp m hm => ?_, fun hp m hm α body => ?_, fun hp c m hm => ?_⟩
  · have hsum := h.balanced hp m hm
    omega
  · simp only [Session.enter, hfull hp m hm]
  · simp only [Session.container_run, hfull hp m hm]
  · obtain ⟨hcalled, hback, hcontainers⟩ := h.returned c m hm
    have hbefore := h.balanced hp.paired c hcalled
    have hafter := h.balanced hp.paired m hback
    have hnone := h.single hp c hcalled
    have hnone' := h.single hp m hback
    rw [Moment.opened] at hbefore hafter
    omega

end Watch

/-- Writing and reading, in every layout and under every limit: a run of any operations, containers
nested in any way and single entries between them, that goes on past failures, keeps its books. -/
theorem runs_accounted (l : Layout) (lim : Limits) (hd : lim.depth ≤ maxWord) :
    (∀ xs : List Write.Script,
      let s := Session.start lim []
      let w := Watch.perform (xs.map (Write.Script.watch l)) (.start s)
      w.now.session = xs.foldl (fun s x => (x.run l s).2) s ∧ w.Accounted lim.depth) ∧
    ∀ (b : Bytes) (α : Type) (ps : List (Read.Program α)),
      let src : Read.Source := ⟨l, lim, b⟩
      let s := Session.start lim b
      let w := Watch.perform (ps.map (Read.Program.watch src)) (.start s)
      w.now.session = ps.foldl (fun s p => (p.run src s).2) s ∧ w.Accounted lim.depth := by
  have hstart (b : Bytes) : Watch.Consistent lim.depth (.start (.start lim b)) :=
    Watch.Consistent.start (.start lim b)
  refine ⟨fun xs => ?_, fun b α ps => ?_⟩
  · obtain ⟨hsession, hleads⟩ := Watch.perform_shows (Write.Script.shows l) xs
      (.start (.start lim []))
    exact ⟨hsession, (hleads.consistent hd (hstart [])).accounted⟩
  · obtain ⟨hsession, hleads⟩ := Watch.perform_shows (Read.Program.shows ⟨l, lim, b⟩ (α := α)) ps
      (.start (.start lim b))
    exact ⟨hsession, (hleads.consistent hd (hstart b)).accounted⟩

def refusals : List Write.Script :=
  [.command .enter, .container [.command (.bool true), .container [.command .unit]],
    .command .leave, .container [.container [.command (.unencodable .char)]]]

def nestings : List (Read.Program Bool) :=
  [.container (.container (.container (.ask .bool))), .container (.ask .bool)]

def watchedRefusals : Watch :=
  Watch.perform (refusals.map (Write.Script.watch ⟨.compact, true⟩))
    (.start (.start { depth := 2 } []))

def watchedNestings : Watch :=
  Watch.perform (nestings.map (Read.Program.watch ⟨⟨.compact, true⟩, { depth := 2 }, [7]⟩))
    (.start (.start { depth := 2 } [7]))

/-- Written, an entry, in it a container with one that is refused, and two containers of which the
inner one fails; read, two containers with a third that is refused, and one that holds no truth
value. -/
theorem runs_accounted_refusals :
    ({ depth := 2 } : Limits).depth ≤ maxWord ∧ watchedRefusals.Paired ∧ watchedNestings.Plain ∧
      (∀ m ∈ watchedRefusals.moments, m.session.budget + m.opened = 2 ∧ m.opened ≤ 2) ∧
      ∀ called m, (.returned called, m) ∈ watchedNestings.log →
        m.session.budget = called.session.budget := by
  have hd : ({ depth := 2 } : Limits).depth ≤ maxWord := by decide
  have hpaired : watchedRefusals.Paired := by decide
  have hplain : watchedNestings.Plain := by decide
  obtain ⟨hwrite, hread⟩ := runs_accounted ⟨.compact, true⟩ { depth := 2 } hd
  obtain ⟨-, hwritten⟩ := hwrite refusals
  obtain ⟨-, hbooks⟩ := hread [7] Bool nestings
  exact ⟨hd, hpaired, hplain, hwritten.balanced hpaired, hbooks.returned hplain⟩

end Bytewire
