/-
Tasks that are started by messages, and send messages.

* `Queued` — a shared state, and the messages that wait;
* `poolStep`, `poolNext` — any number of slots: a slot that is free takes a message and
  runs its task, whose steps may send further messages; others send messages, too;
* `Handed` — a message waits, or some slot has taken it.

A slot runs one task and is not used again, so it stands for the message it took: whoever
works on it dies and is replaced within the steps of the task.

Main results: `Handed.moved`, a message that was sent waits until it is taken, and
`pool_invariant`, the invariant rule.
-/
import Newsforge.Runs

namespace Runs

/-- A shared state, and the messages that wait. -/
structure Queued (σ M : Type*) where
  state : σ
  waiting : List M

/-- A free slot takes a message, or the task of a slot makes a step. -/
inductive PoolAction (A M : Type*)
  | take (m : M)
  | run (a : A)
  deriving DecidableEq

section Pools

variable {ι σ T A E M : Type*} [DecidableEq ι] [DecidableEq M]

/-- The tasks that messages start, and what a step does: to the task, to the state, and
which messages it sends. -/
structure Handler (σ T A M : Type*) where
  start : M → T
  step : A → T → σ → Option (T × σ × List M)

/-- One step of a slot. -/
def poolStep (h : Handler σ T A M) :
    PoolAction A M → Option T → Queued σ M → Option (Option T × Queued σ M)
  | .take m, none, w =>
    if m ∈ w.waiting then some (some (h.start m), ⟨w.state, w.waiting.erase m⟩) else none
  | .run a, some t, w =>
    (h.step a t w.state).map fun r => (some r.1, ⟨r.2.1, r.2.2 ++ w.waiting⟩)
  | _, _, _ => none

/-- What others do, and which messages they send. -/
def poolEnv (env : E → σ → Option (σ × List M)) (e : E) (w : Queued σ M) :
    Option (Queued σ M) :=
  (env e w.state).map fun r => ⟨r.1, r.2 ++ w.waiting⟩

abbrev Pool (ι σ T M : Type*) := Config ι (Queued σ M) (Option T)

def poolNext (h : Handler σ T A M) (env : E → σ → Option (σ × List M)) :
    Move ι (PoolAction A M) E → Pool ι σ T M → Option (Pool ι σ T M) :=
  Config.next (poolStep h) (poolEnv env)

/-! ### What a move does -/

/-- What a move does: a message is taken, a task makes a step, or others do something. -/
inductive Moved (h : Handler σ T A M) (env : E → σ → Option (σ × List M)) (c : Pool ι σ T M) :
    Move ι (PoolAction A M) E → Pool ι σ T M → Prop
  | took (p : ι) (m : M) (hfree : c.loc p = none) (hin : m ∈ c.shared.waiting) :
      Moved h env c (.proc p (.take m))
        ⟨⟨c.shared.state, c.shared.waiting.erase m⟩, Function.update c.loc p (some (h.start m))⟩
  | ran (p : ι) (a : A) (t t' : T) (s : σ) (sent : List M) (hloc : c.loc p = some t)
      (hstep : h.step a t c.shared.state = some (t', s, sent)) :
      Moved h env c (.proc p (.run a))
        ⟨⟨s, sent ++ c.shared.waiting⟩, Function.update c.loc p (some t')⟩
  | others (e : E) (s : σ) (sent : List M) (henv : env e c.shared.state = some (s, sent)) :
      Moved h env c (.env e) ⟨⟨s, sent ++ c.shared.waiting⟩, c.loc⟩

variable {h : Handler σ T A M} {env : E → σ → Option (σ × List M)} {c c' c₀ : Pool ι σ T M}
  {mv : Move ι (PoolAction A M) E}

theorem poolNext_moved (hnext : poolNext h env mv c = some c') : Moved h env c mv c' := by
  cases mv with
  | proc p a =>
    obtain ⟨l, w, hstep, rfl⟩ := Config.next_proc.mp hnext
    cases a with
    | take m =>
      cases hloc : c.loc p with
      | none =>
        simp only [hloc, poolStep] at hstep
        by_cases hin : m ∈ c.shared.waiting
        · simp only [if_pos hin] at hstep
          cases hstep
          exact .took p m hloc hin
        · simp only [if_neg hin] at hstep
          cases hstep
      | some t =>
        simp only [hloc, poolStep] at hstep
        cases hstep
    | run a =>
      cases hloc : c.loc p with
      | none =>
        simp only [hloc, poolStep] at hstep
        cases hstep
      | some t =>
        simp only [hloc, poolStep] at hstep
        obtain ⟨⟨t', s, sent⟩, hran, heq⟩ := Option.map_eq_some_iff.mp hstep
        cases heq
        exact .ran p a t t' s sent hloc hran
  | env e =>
    obtain ⟨w, hw, rfl⟩ := Config.next_env.mp hnext
    obtain ⟨⟨s, sent⟩, henv, heq⟩ := Option.map_eq_some_iff.mp hw
    cases heq
    exact .others e s sent henv

/-! ### Messages -/

variable {origin : T → M}

/-- The message waits, or a slot has taken it. -/
def Handed (origin : T → M) (m : M) (c : Pool ι σ T M) : Prop :=
  m ∈ c.shared.waiting ∨ ∃ p t, c.loc p = some t ∧ origin t = m

/-- In states that meet `G`, a task keeps the message it was started with. -/
structure Handler.Keeps (h : Handler σ T A M) (origin : T → M) (G : σ → Prop) : Prop where
  start : ∀ m, origin (h.start m) = m
  step : ∀ {a t s t' s' sent}, G s → h.step a t s = some (t', s', sent) → origin t' = origin t

variable {G : σ → Prop}

/-- **A message that was sent waits until it is taken.** -/
theorem Handed.moved {m : M} (hm : Handed origin m c) (hkeeps : h.Keeps origin G)
    (hG : G c.shared.state) (hmoved : Moved h env c mv c') : Handed origin m c' := by
  cases hmoved with
  | took p m' hfree hin =>
    by_cases heq : m = m'
    · subst heq
      exact .inr ⟨p, h.start m, Function.update_self .., hkeeps.start m⟩
    · rcases hm with hwaiting | ⟨q, t, hq, ht⟩
      · exact .inl ((List.mem_erase_of_ne heq).mpr hwaiting)
      · have hne : q ≠ p := by
          rintro rfl
          rw [hfree] at hq
          cases hq
        exact .inr ⟨q, t, (Function.update_of_ne hne ..).trans hq, ht⟩
  | ran p a t t' s sent hloc hstep =>
    rcases hm with hwaiting | ⟨q, u, hq, hu⟩
    · exact .inl (List.mem_append_right sent hwaiting)
    · by_cases heq : q = p
      · subst heq
        rw [hloc] at hq
        cases hq
        exact .inr ⟨q, t', Function.update_self .., (hkeeps.step hG hstep).trans hu⟩
      · exact .inr ⟨q, u, (Function.update_of_ne heq ..).trans hq, hu⟩
  | others e s sent => exact hm.imp_left (List.mem_append_right sent)

omit [DecidableEq ι] [DecidableEq M] in
/-- A message that a step sends is handed over. -/
theorem Handed.sent {m : M} {sent : List M} {s : σ} {loc : ι → Option T} (hm : m ∈ sent) :
    Handed origin m ⟨⟨s, sent ++ c.shared.waiting⟩, loc⟩ :=
  .inl (List.mem_append_left _ hm)

omit [DecidableEq ι] [DecidableEq M] in
/-- Where no message waits, each one that was sent has been taken. -/
theorem Handed.taken {m : M} (hm : Handed origin m c) (hrest : c.shared.waiting = []) :
    ∃ p t, c.loc p = some t ∧ origin t = m := by
  rcases hm with hwaiting | htaken
  · rw [hrest] at hwaiting
    cases hwaiting
  · exact htaken

/-- **Invariant rule** for tasks that send messages: what is known of the state and of the
task of each slot is kept by the steps of that task, of other tasks and, where the run
allows them, of others, and is true of a task that starts. -/
theorem pool_invariant {ok : Pool ι σ T M → Move ι (PoolAction A M) E → Prop}
    {P : T → σ → Prop} (h0 : G c₀.shared.state ∧ ∀ p t, c₀.loc p = some t → P t c₀.shared.state)
    (start : ∀ m s, G s → P (h.start m) s)
    (own : ∀ a t s t' s' sent, G s → P t s → h.step a t s = some (t', s', sent) →
      G s' ∧ P t' s')
    (other : ∀ a t s t' s' sent u, G s → P t s → P u s → h.step a t s = some (t', s', sent) →
      P u s')
    (envs : ∀ c e s' sent, ok c (.env e) → G c.shared.state → env e c.shared.state = some (s', sent) →
      G s' ∧ ∀ u, P u c.shared.state → P u s')
    (hreach : Reach (poolNext h env) ok c₀ c) :
    G c.shared.state ∧ ∀ p t, c.loc p = some t → P t c.shared.state := by
  refine hreach.invariant (I := fun c => G c.shared.state ∧
    ∀ p t, c.loc p = some t → P t c.shared.state) h0 ?_
  rintro c mv c' ⟨hG, hP⟩ hok hnext
  cases poolNext_moved hnext with
  | took p m hfree hin =>
    refine ⟨hG, fun q t hq => ?_⟩
    by_cases heq : q = p
    · subst heq
      simp only [Function.update_self] at hq
      cases hq
      exact start m _ hG
    · exact hP q t ((Function.update_of_ne heq ..).symm.trans hq)
  | ran p a t t' s sent hloc hstep =>
    obtain ⟨hG', hP'⟩ := own a t _ t' s sent hG (hP p t hloc) hstep
    refine ⟨hG', fun q u hq => ?_⟩
    by_cases heq : q = p
    · subst heq
      simp only [Function.update_self] at hq
      cases hq
      exact hP'
    · have hq : c.loc q = some u := (Function.update_of_ne heq ..).symm.trans hq
      exact other a t _ t' s sent u hG (hP p t hloc) (hP q u hq) hstep
  | others e s sent henv =>
    obtain ⟨hG', hP'⟩ := envs c e s sent hok hG henv
    exact ⟨hG', fun p t hp => hP' t (hP p t hp)⟩

end Pools

end Runs
