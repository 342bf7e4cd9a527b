/-
Runs of labelled transition systems, and interleavings of processes.

* `Reach next ok s₀ s` — a finite run of the partial transition function
  `next` leads from `s₀` to `s`, and each of its moves met the side condition
  `ok` in the state it was taken in;
* `exec` — the run of a given schedule, computed;
* `Config` — one shared state and one local state for each process;
  `Config.next` interleaves the atomic steps of any number of processes.

The proof rules are `Reach.invariant` (one step lemma gives every reachable
state) and, for interleavings, `Config.invariant_of_assertions`: a shared
invariant `G` and a local assertion `P` hold in every reachable configuration
once each step keeps `G`, re-establishes `P` for the process that moved, and
does not interfere with `P` for the others.  `withLocks` adds exclusive locks
to the steps of processes, and `exclusive_of_reach` is mutual exclusion.
-/
import Mathlib.Logic.Function.Basic
import Mathlib.Tactic.Common

namespace Runs

section Reach

variable {S M : Type*} {next : M → S → Option S} {ok ok' : S → M → Prop} {s₀ s s' : S}

/-- Some finite run of `next` leads from `s₀` to `s`; every move `m` of it,
taken in state `t`, meets `ok t m`. -/
inductive Reach (next : M → S → Option S) (ok : S → M → Prop) (s₀ : S) : S → Prop
  | refl : Reach next ok s₀ s₀
  | step {s s' : S} {m : M} (h : Reach next ok s₀ s) (hok : ok s m)
      (hnext : next m s = some s') : Reach next ok s₀ s'

/-- No side condition on the moves. -/
def anyMove : S → M → Prop := fun _ _ => True

/-- **Invariant rule.**  What holds initially and is kept by every admissible
step holds in every reachable state. -/
theorem Reach.invariant {I : S → Prop} (h : Reach next ok s₀ s) (h0 : I s₀)
    (hstep : ∀ s m s', I s → ok s m → next m s = some s' → I s') : I s := by
  induction h with
  | refl => exact h0
  | step _ hok hnext ih => exact hstep _ _ _ ih hok hnext

/-- A weaker side condition admits at least the same runs. -/
theorem Reach.mono (h : Reach next ok s₀ s) (himp : ∀ s m, ok s m → ok' s m) :
    Reach next ok' s₀ s := by
  induction h with
  | refl => exact .refl
  | step _ hok hnext ih => exact .step ih (himp _ _ hok) hnext

/-- What is known of every reachable state may be used at each step. -/
theorem Reach.knowing {I : S → Prop} (h : Reach next ok s₀ s)
    (hI : ∀ s, Reach next ok s₀ s → I s) : Reach next (fun s m => I s ∧ ok s m) s₀ s := by
  induction h with
  | refl => exact .refl
  | step h hok hnext ih => exact .step ih ⟨hI _ h, hok⟩ hnext

theorem Reach.trans {s₁ : S} (h : Reach next ok s₀ s₁) (h' : Reach next ok s₁ s) :
    Reach next ok s₀ s := by
  induction h' with
  | refl => exact h
  | step _ hok hnext ih => exact .step ih hok hnext

/-- The state a schedule of moves leads to, if every move of it is enabled. -/
def exec (next : M → S → Option S) : List M → S → Option S
  | [], s => some s
  | m :: ms, s => (next m s).bind (exec next ms)

/-- Every move of the schedule meets `ok` in the state it is taken in. -/
def Along (next : M → S → Option S) (ok : S → M → Prop) : List M → S → Prop
  | [], _ => True
  | m :: ms, s => ok s m ∧ ∀ s' ∈ next m s, Along next ok ms s'

instance Along.decide [∀ s m, Decidable (ok s m)] :
    (ms : List M) → (s : S) → Decidable (Along next ok ms s)
  | [], _ => isTrue trivial
  | m :: ms, s =>
    have := Along.decide ms
    inferInstanceAs (Decidable (ok s m ∧ ∀ s' ∈ next m s, Along next ok ms s'))

/-- Moves that meet the side condition in every state. -/
theorem along_of_forall {ms : List M} (h : ∀ m ∈ ms, ∀ s, ok s m) (s : S) :
    Along next ok ms s := by
  induction ms generalizing s with
  | nil => exact trivial
  | cons m ms ih =>
    obtain ⟨hm, hms⟩ := List.forall_mem_cons.mp h
    exact ⟨hm s, fun s' _ => ih hms s'⟩

theorem along_anyMove (ms : List M) (s : S) : Along next anyMove ms s :=
  along_of_forall (fun _ _ _ => trivial) s

/-- Executing a schedule is a run. -/
theorem Reach.of_exec {ms : List M} (h : exec next ms s₀ = some s)
    (hok : Along next ok ms s₀) : Reach next ok s₀ s := by
  induction ms generalizing s₀ with
  | nil =>
    rw [exec, Option.some_inj] at h
    exact h ▸ .refl
  | cons m ms ih =>
    obtain ⟨s₁, h1, h2⟩ := Option.bind_eq_some_iff.mp h
    exact (Reach.step .refl hok.1 h1).trans (ih h2 (hok.2 s₁ h1))

variable (ok) in
/-- A schedule that leads to a state of which `f` says `x` witnesses a reachable
state of that kind. -/
theorem Reach.exists_of_exec {β : Type*} {ms : List M} {f : S → β} {x : β}
    (h : (exec next ms s₀).map f = some x) (hok : Along next ok ms s₀) :
    ∃ s, Reach next ok s₀ s ∧ f s = x := by
  obtain ⟨s, hs, hf⟩ := Option.map_eq_some_iff.mp h
  exact ⟨s, .of_exec hs hok, hf⟩

end Reach

/-! ### Interleaved processes -/

/-- A configuration: the state all processes share, and the local state of
each process `p : ι`. -/
structure Config (ι σ L : Type*) where
  shared : σ
  loc : ι → L

/-- A move is one atomic step of a process, labelled with what the
environment chose for it, or a step of the environment alone. -/
inductive Move (ι A E : Type*)
  | proc (p : ι) (a : A)
  | env (e : E)
  deriving DecidableEq

namespace Config

variable {ι σ L A E : Type*} [DecidableEq ι]

/-- One move: process `p` replaces its local state and the shared one, every
other process keeps its own. -/
def next (step : A → L → σ → Option (L × σ)) (env : E → σ → Option σ) :
    Move ι A E → Config ι σ L → Option (Config ι σ L)
  | .proc p a, c =>
    (step a (c.loc p) c.shared).map fun r => ⟨r.2, Function.update c.loc p r.1⟩
  | .env e, c => (env e c.shared).map fun s => ⟨s, c.loc⟩

variable {step : A → L → σ → Option (L × σ)} {env : E → σ → Option σ}
  {ok : Config ι σ L → Move ι A E → Prop} {c₀ c c' : Config ι σ L}

theorem next_proc {p : ι} {a : A} :
    next step env (.proc p a) c = some c' ↔
      ∃ l s, step a (c.loc p) c.shared = some (l, s) ∧
        c' = ⟨s, Function.update c.loc p l⟩ := by
  simp only [next, Option.map_eq_some_iff, Prod.exists]
  constructor
  · rintro ⟨l, s, h, rfl⟩
    exact ⟨l, s, h, rfl⟩
  · rintro ⟨l, s, h, rfl⟩
    exact ⟨l, s, h, rfl⟩

theorem next_env {e : E} :
    next step env (.env e : Move ι A E) c = some c' ↔
      ∃ s, env e c.shared = some s ∧ c' = ⟨s, c.loc⟩ := by
  simp only [next, Option.map_eq_some_iff]
  constructor
  · rintro ⟨s, h, rfl⟩
    exact ⟨s, h, rfl⟩
  · rintro ⟨s, h, rfl⟩
    exact ⟨s, h, rfl⟩

/-- A configuration meets the shared invariant `G`, the assertion `P` of every
process, and the assertion `Q` of every pair of different processes. -/
structure Meets (G : σ → Prop) (P : L → σ → Prop) (Q : L → L → Prop)
    (c : Config ι σ L) : Prop where
  shared : G c.shared
  each : ∀ p, P (c.loc p) c.shared
  pair : ∀ p q, p ≠ q → Q (c.loc p) (c.loc q)

/-- **Assertions without interference.**  `own`: the process that moves
re-establishes the shared invariant and its own assertion; `other`: it does
not invalidate the assertion of another process; `pairs`: it stays compatible
with each other process; `envs`: the environment keeps everything. -/
theorem invariant_of_assertions {G : σ → Prop} {P : L → σ → Prop} {Q : L → L → Prop}
    (hsymm : ∀ l m, Q l m → Q m l)
    (own : ∀ c p a l s, Meets G P Q c → ok c (.proc p a) →
      step a (c.loc p) c.shared = some (l, s) → G s ∧ P l s)
    (other : ∀ c p a l s q, Meets G P Q c → ok c (.proc p a) →
      step a (c.loc p) c.shared = some (l, s) → q ≠ p → P (c.loc q) s)
    (pairs : ∀ c p a l s q, Meets G P Q c → ok c (.proc p a) →
      step a (c.loc p) c.shared = some (l, s) → q ≠ p → Q l (c.loc q))
    (envs : ∀ c e s, Meets G P Q c → ok c (.env e) → env e c.shared = some s →
      G s ∧ ∀ p, P (c.loc p) s)
    (h0 : Meets G P Q c₀) (h : Reach (next step env) ok c₀ c) : Meets G P Q c := by
  refine h.invariant h0 ?_
  intro c m c' hc hok hnext
  cases m with
  | proc p a =>
    obtain ⟨l, s, hstep, rfl⟩ := next_proc.mp hnext
    have hown := own c p a l s hc hok hstep
    -- the process in question is the one that moved, or another one
    refine ⟨hown.1, fun q => ?_, fun q r hqr => ?_⟩
    · by_cases hq : q = p
      · subst hq
        simpa using hown.2
      · simpa [hq] using other c p a l s q hc hok hstep hq
    · by_cases hq : q = p
      · subst hq
        simpa [hqr.symm] using pairs c q a l s r hc hok hstep hqr.symm
      · by_cases hr : r = p
        · subst hr
          simpa [hq] using hsymm _ _ (pairs c r a l s q hc hok hstep hq)
        · simpa [hq, hr] using hc.pair q r hqr
  | env e =>
    obtain ⟨s, hs, rfl⟩ := next_env.mp hnext
    have he := envs c e s hc hok hs
    exact ⟨he.1, he.2, hc.pair⟩

end Config

/-! ### Locks -/

/-- A shared state, with the locks that some process holds. -/
structure Locked (σ κ : Type*) where
  state : σ
  held : List κ

section Locks

variable {ι σ L A E κ : Type*} [DecidableEq κ]

/-- `locks l` are the exclusive locks of a process in the local state `l`.  A
step waits (is not enabled) while another process holds a lock it takes; the
locks that the new local state does not have are free again. -/
def withLocks (locks : L → List κ) (step : A → L → σ → Option (L × σ)) (a : A) (l : L)
    (s : Locked σ κ) : Option (L × Locked σ κ) :=
  (step a l s.state).bind fun r =>
    if ∀ k ∈ locks r.1, k ∈ locks l ∨ k ∉ s.held then
      some (r.1, ⟨r.2, locks r.1 ++ s.held.filter fun k => k ∉ locks l⟩)
    else none

/-- The environment takes no locks. -/
def envWithLocks (env : E → σ → Option σ) (e : E) (s : Locked σ κ) : Option (Locked σ κ) :=
  (env e s.state).map fun r => ⟨r, s.held⟩

variable {locks : L → List κ} {step : A → L → σ → Option (L × σ)} {env : E → σ → Option σ}

theorem withLocks_eq_some {a : A} {l l' : L} {s s' : Locked σ κ} :
    withLocks locks step a l s = some (l', s') ↔
      step a l s.state = some (l', s'.state) ∧
        (∀ k ∈ locks l', k ∈ locks l ∨ k ∉ s.held) ∧
          s'.held = locks l' ++ s.held.filter fun k => k ∉ locks l := by
  obtain ⟨s', held'⟩ := s'
  simp only [withLocks, Option.bind_eq_some_iff, Option.ite_none_right_eq_some,
    Option.some_inj, Prod.mk.injEq, Locked.mk.injEq]
  constructor
  · rintro ⟨r, hstep, hfree, rfl, rfl, rfl⟩
    exact ⟨hstep, hfree, rfl⟩
  · rintro ⟨hstep, hfree, rfl⟩
    exact ⟨(l', s'), hstep, hfree, rfl, rfl, rfl⟩

/-- Two processes hold different locks. -/
def NoCommon (locks : L → List κ) (l m : L) : Prop := ∀ k ∈ locks l, k ∉ locks m

variable [DecidableEq ι] {ok : Config ι (Locked σ κ) L → Move ι A E → Prop}
  {c₀ c : Config ι (Locked σ κ) L}

/-- **Mutual exclusion.**  No two processes ever hold one lock. -/
theorem exclusive_of_reach (h0 : ∀ p, locks (c₀.loc p) = [])
    (h : Reach (Config.next (withLocks locks step) (envWithLocks env)) ok c₀ c) {p q : ι}
    (hpq : p ≠ q) : NoCommon locks (c.loc p) (c.loc q) := by
  have hsymm : ∀ l m, NoCommon locks l m → NoCommon locks m l :=
    fun l m hlm k hk hl => hlm k hl hk
  have hinit : Config.Meets (fun _ => True) (fun l s => ∀ k ∈ locks l, k ∈ s.held)
      (NoCommon locks) c₀ := by
    refine ⟨trivial, fun p k hk => ?_, fun p q _ k hk => ?_⟩
    · rw [h0 p] at hk
      cases hk
    · rw [h0 p] at hk
      cases hk
  refine (Config.invariant_of_assertions hsymm ?_ ?_ ?_ ?_ hinit h).pair p q hpq
  · -- the mover holds the locks of its new state
    intro c p a l s hc _ hstep
    obtain ⟨-, -, hheld⟩ := withLocks_eq_some.mp hstep
    refine ⟨trivial, fun k hk => ?_⟩
    rw [hheld]
    exact List.mem_append_left _ hk
  · -- it frees only its own, and nobody else has one of these
    intro c p a l s q hc _ hstep hq k hk
    obtain ⟨-, -, hheld⟩ := withLocks_eq_some.mp hstep
    rw [hheld]
    refine List.mem_append_right _ (List.mem_filter.mpr ⟨hc.each q k hk, ?_⟩)
    exact decide_eq_true (hc.pair q p hq k hk)
  · -- a lock it takes was free, or its own before
    intro c p a l s q hc _ hstep hq k hk hkq
    obtain ⟨-, hfree, -⟩ := withLocks_eq_some.mp hstep
    rcases hfree k hk with hown | hfree
    · exact hc.pair p q hq.symm k hown hkq
    · exact hfree (hc.each q k hkq)
  · intro c e s hc _ henv
    obtain ⟨r, -, rfl⟩ := Option.map_eq_some_iff.mp henv
    exact ⟨trivial, hc.each⟩

end Locks

end Runs
