import Bytewire.Watch

/-! What watching a run shows of it. Each act keeps the sum of the budget and of what is open, and a
container gives back what it took whether its body fails or not; from this the sum is the limit at
every moment of a run. -/
namespace Bytewire
open Session
universe u

def Quiet {α : Type} (x : Attempt Session α) : Prop := ∀ s, (x s).2.budget = s.budget

namespace Quiet
variable {α β : Type}

theorem pure (a : α) : Quiet (pure a) := fun _ => rfl

theorem fail (e : Fault) : Quiet (.fail e : Attempt Session α) := fun _ => rfl

theorem lift (r : Except Fault α) : Quiet (.lift r) := fun _ => rfl

theorem get : Quiet .get := fun _ => rfl

theorem emit (new : Bytes) : Quiet (emit new) := fun _ => rfl

theorem onBytes (x : Attempt Bytes α) : Quiet (onBytes x) := fun _ => rfl

theorem bind {x : Attempt Session α} {f : α → Attempt Session β} (hx : Quiet x)
    (hf : ∀ a, Quiet (f a)) : Quiet (x >>= f) :=
  Attempt.bind_state (fun (s t : Session) => t.budget = s.budget) (fun h h' => h'.trans h) hx hf

end Quiet

namespace Watch
variable {w : Watch} {a : Act} {m : Moment} {D : Nat}

theorem moments_move : (w.move a m).moments = w.moments ++ [m] := by
  simp [moments, move]

theorem now_mem_moments (w : Watch) : w.now ∈ w.moments := by simp [moments]

theorem Paired.of_move (h : (w.move a m).Paired) : w.Paired :=
  fun e he => h e (List.mem_append_left _ he)

theorem Plain.of_move (h : (w.move a m).Plain) : w.Plain :=
  fun e he => h e (List.mem_append_left _ he)

theorem Paired.single_pos (h : (w.move .leave m).Paired) : 0 < w.now.single :=
  h (.leave, w.now) (by simp [move]) rfl

theorem Plain.paired (h : w.Plain) : w.Paired := fun e he hleave => absurd hleave (h e he).2

/-- The budget and what is open make up the limit; a container comes back to as many open ones as it
was called with; and without single entries none is ever open. -/
structure Consistent (D : Nat) (w : Watch) : Prop where
  balanced : w.Paired → ∀ m ∈ w.moments, m.session.budget + m.opened = D
  returned : ∀ c m, (.returned c, m) ∈ w.log → c ∈ w.moments ∧ m ∈ w.moments ∧
    c.containers = m.containers
  single : w.Plain → ∀ m ∈ w.moments, m.single = 0

namespace Consistent

theorem start (s : Session) : Consistent s.budget (.start s) where
  balanced := by simp [Watch.start, moments, Moment.opened]
  returned := by simp [Watch.start]
  single := by simp [Watch.start, moments]

/-- One act keeps the books if the moment it leads to agrees with the one it began at. -/
theorem move (h : Consistent D w)
    (hbudget : (a = .leave → 0 < w.now.single) → w.now.session.budget + w.now.opened = D →
      m.session.budget + m.opened = D)
    (hreturned : ∀ c, a = .returned c → c ∈ w.moments ∧ c.containers = w.now.containers)
    (hsingle : a ≠ .enter → w.now.single = 0 → m.single = 0) : Consistent D (w.move a m) where
  balanced hp n hn := by
    rw [moments_move] at hn
    rcases List.mem_append.1 hn with hn | hn
    · exact h.balanced hp.of_move n hn
    · rw [List.mem_singleton.1 hn]
      refine hbudget ?_ (h.balanced hp.of_move _ w.now_mem_moments)
      rintro rfl
      exact hp.single_pos
  returned c n hn := by
    rw [moments_move]
    rcases List.mem_append.1 hn with hn | hn
    · obtain ⟨hc, hm, heq⟩ := h.returned c n hn
      exact ⟨List.mem_append_left _ hc, List.mem_append_left _ hm, heq⟩
    · cases List.mem_singleton.1 hn
      obtain ⟨hc, heq⟩ := hreturned c rfl
      exact ⟨List.mem_append_left _ hc, List.mem_append_left _ w.now_mem_moments, heq⟩
  single hp n hn := by
    rw [moments_move] at hn
    rcases List.mem_append.1 hn with hn | hn
    · exact h.single hp.of_move n hn
    · rw [List.mem_singleton.1 hn]
      refine hsingle ?_ (h.single hp.of_move _ w.now_mem_moments)
      rintro rfl
      exact (hp (.enter, w.now) (by simp [Watch.move])).1 rfl

end Consistent

structure Leads (w v : Watch) : Prop where
  containers : v.now.containers = w.now.containers
  seen : w.moments ⊆ v.moments
  consistent : ∀ {D}, D ≤ maxWord → Consistent D w → Consistent D v

theorem Leads.refl (w : Watch) : Leads w w := ⟨rfl, fun _ hm => hm, fun _ h => h⟩

theorem Leads.trans {u v w : Watch} (h : Leads u v) (hv : Leads v w) : Leads u w :=
  ⟨hv.containers.trans h.containers, fun _ hm => hv.seen (h.seen hm),
    fun hD hu => hv.consistent hD (h.consistent hD hu)⟩

/-- `y` does what `x` does to the session and gives the same, and keeps the books beside it. -/
structure Shows {α : Type} (y : Attempt Watch α) (x : Attempt Session α) : Prop where
  erased : ∀ w, ((y w).1, (y w).2.now.session) = x w.now.session
  leads : ∀ w, Leads w (y w).2

namespace Shows
variable {α β : Type} {y : Attempt Watch α} {x : Attempt Session α}

theorem pure (a : α) : Shows (pure a) (pure a) := ⟨fun _ => rfl, Leads.refl⟩

theorem fail (e : Fault) : Shows (.fail e : Attempt Watch α) (.fail e) := ⟨fun _ => rfl, Leads.refl⟩

theorem bind {g : α → Attempt Watch β} {f : α → Attempt Session β} (h : Shows y x)
    (hf : ∀ a, Shows (g a) (f a)) : Shows (y >>= g) (x >>= f) where
  erased w := by
    rw [Attempt.bind_run, Attempt.bind_run, ← h.erased w]
    rcases y w with ⟨_ | a, v⟩
    · rfl
    · exact (hf a).erased v
  leads := Attempt.bind_state Leads Leads.trans h.leads fun a => (hf a).leads

/-- To look at the state changes nothing, so that what follows may depend on it. -/
theorem bind_get {g : Watch → Attempt Watch α} {f : Session → Attempt Session α}
    (h : ∀ w, Shows (g w) (f w.now.session)) : Shows (.get >>= g) (.get >>= f) :=
  ⟨fun w => (h w).erased w, fun w => (h w).leads w⟩

theorem step (hx : Quiet x) : Shows (step x) x where
  erased _ := rfl
  leads w := by
    refine ⟨rfl, by simp [Watch.step, moments_move], fun _ hc => hc.move ?_ (by simp) fun _ h => h⟩
    intro _ hsum
    rw [← hsum, ← hx w.now.session]
    rfl

end Shows

theorem entry_refused {count : Moment → Moment} (h : w.now.session.budget = 0) :
    entry a count w = (.error .depthExceeded, w.move a w.now) := by
  rw [entry, Session.enter, if_pos h]

theorem entry_made {count : Moment → Moment} (h : w.now.session.budget ≠ 0) :
    entry a count w = (.ok (), w.move a
      (count { w.now with session := ⟨w.now.session.budget - 1, w.now.session.bytes⟩ })) := by
  rw [entry, Session.enter, if_neg h]

/-- A refused entry opens nothing. -/
theorem Leads.refused (ha : a = .enter ∨ a = .opening) : Leads w (w.move a w.now) := by
  refine ⟨rfl, by simp [moments_move], fun _ hc => hc.move (fun _ h => h) ?_ fun _ h => h⟩
  rintro c rfl
  simp at ha

namespace Shows
variable {α : Type} {y : Attempt Watch α} {x : Attempt Session α}

theorem enter : Shows Watch.enter Session.enter where
  erased w := by
    by_cases h : w.now.session.budget = 0
    · rw [Watch.enter, entry_refused h, Session.enter, if_pos h]
      rfl
    · rw [Watch.enter, entry_made h, Session.enter, if_neg h]
      rfl
  leads w := by
    by_cases h : w.now.session.budget = 0
    · rw [Watch.enter, entry_refused h]
      exact Leads.refused (.inl rfl)
    · rw [Watch.enter, entry_made h]
      refine ⟨rfl, by simp [moments_move], fun _ hc => hc.move ?_ (by simp) (by simp)⟩
      intro _ hsum
      rw [← hsum, Moment.opened, Moment.opened]
      dsimp only
      omega

theorem leave : Shows Watch.leave Session.leave where
  erased _ := rfl
  leads w := by
    refine ⟨rfl, by simp [Watch.leave, moments_move], fun hD hc => hc.move ?_ (by simp) ?_⟩
    · -- The budget is below the limit, for something is open, so that it does not stop short.
      intro hpos hsum
      have hsingle := hpos rfl
      rw [Moment.opened] at hsum
      rw [← hsum, Moment.opened, restore]
      dsimp only
      omega
    · intro _ hzero
      rw [hzero]

end Shows

def inside (w : Watch) : Watch := w.move .opening
  ⟨⟨w.now.session.budget - 1, w.now.session.bytes⟩, w.now.containers + 1, w.now.single⟩

theorem Consistent.inside (h : Consistent D w) (hw : w.now.session.budget ≠ 0) :
    Consistent D w.inside := by
  refine h.move ?_ (by simp) fun _ h => h
  intro _ hsum
  rw [← hsum, Moment.opened, Moment.opened]
  dsimp only
  omega

theorem Consistent.close (h : Consistent D w) (hD : D ≤ maxWord) (hw : 0 < w.now.containers) :
    Consistent D w.close := by
  refine h.move ?_ (by simp) fun _ h => h
  intro _ hsum
  rw [Moment.opened] at hsum
  rw [← hsum, Moment.opened, restore]
  dsimp only
  omega

/-- To be back opens and closes nothing, and there are as many open as when it was called. -/
theorem Leads.returned {v : Watch} (h : Leads w v) :
    Leads w (v.move (.returned w.now) v.now) := by
  refine h.trans ⟨rfl, by simp [moments_move], fun _ hc => hc.move (fun _ h => h) ?_ fun _ h => h⟩
  intro c hcall
  cases hcall
  exact ⟨h.seen w.now_mem_moments, h.containers.symm⟩

section
variable {α : Type} {y : Attempt Watch α} {x : Attempt Session α}

theorem container_refused (h : w.now.session.budget = 0) :
    Watch.container y w =
      (.error .depthExceeded, (w.move .opening w.now).move (.returned w.now) w.now) := by
  have hopening : Watch.opening w = (.error .depthExceeded, w.move .opening w.now) :=
    entry_refused h
  rw [Watch.container, Attempt.bind_error hopening]
  rfl

theorem container_made (h : w.now.session.budget ≠ 0) :
    Watch.container y w = ((y w.inside).1,
      (y w.inside).2.close.move (.returned w.now) (y w.inside).2.close.now) := by
  have hopening : Watch.opening w = (.ok (), w.inside) := entry_made h
  rw [Watch.container, Attempt.bind_ok hopening]
  rfl

/-- A body that keeps the books is closed again however it ends. -/
theorem Leads.close {v : Watch} (hw : w.now.session.budget ≠ 0) (h : Leads w.inside v) :
    Leads w v.close := by
  have hopen : v.now.containers = w.now.containers + 1 := h.containers
  refine ⟨?_, ?_, fun hD hc => (h.consistent hD (hc.inside hw)).close hD (by omega)⟩
  · rw [Watch.close, move, hopen, Nat.add_sub_cancel]
  · intro m hm
    have hinside : m ∈ w.inside.moments := by simp [inside, moments_move, hm]
    simp [Watch.close, moments_move, h.seen hinside]

theorem Shows.container (h : Shows y x) : Shows (Watch.container y) (Session.container x) where
  erased w := by
    rw [container_run]
    by_cases hw : w.now.session.budget = 0
    · rw [container_refused hw, if_pos hw]
      rfl
    · have hbody : _ = x ⟨w.now.session.budget - 1, w.now.session.bytes⟩ := h.erased w.inside
      rw [container_made hw, if_neg hw, ← hbody]
      rfl
  leads w := by
    by_cases hw : w.now.session.budget = 0
    · rw [container_refused hw]
      exact (Leads.refused (.inr rfl)).returned
    · rw [container_made hw]
      exact ((h.leads w.inside).close hw).returned

theorem Shows.capture (h : Shows y x) : Shows (Watch.capture y) (Session.capture x) :=
  bind_get fun _ => h.bind fun _ => bind_get fun _ => pure _

/-- Runs that go on past failures do what they do unwatched, and keep the books. -/
theorem perform_shows {ι : Type u} {y : ι → Attempt Watch α} {x : ι → Attempt Session α}
    (h : ∀ i, Shows (y i) (x i)) (is : List ι) (w : Watch) :
    (perform (is.map y) w).now.session = is.foldl (fun s i => (x i s).2) w.now.session ∧
      Leads w (perform (is.map y) w) := by
  induction is generalizing w with
  | nil => exact ⟨rfl, Leads.refl w⟩
  | cons i is ih =>
    obtain ⟨hsession, hleads⟩ := ih (y i w).2
    have hi : (y i w).2.now.session = (x i w.now.session).2 := congrArg Prod.snd ((h i).erased w)
    refine ⟨?_, ((h i).leads w).trans hleads⟩
    rw [List.foldl_cons, ← hi]
    exact hsession

end
end Watch
end Bytewire
