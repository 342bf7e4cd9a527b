/-
No due feed waits for ever.

* `round_alone` — a run of `enqueue_due_feeds` with nobody else at it takes the first
  candidates and moves them forward;
* `Rounds`, `turn` — such runs one after another, with writes and time in between;
  `Between.turn` — they are runs of the scheduler;
* `ahead` — the feeds that may be taken before a given one.

Main result: `due_feed_is_taken`.  A round that leaves out a feed that is due takes as
many others as it may, and those move behind it, whatever time passes.
-/
import Newsforge.Batches
import Newsforge.DueRounds

open Tables Runs Feeds

namespace Scheduler

open Batches

/-! ### One round -/

/-- The rows behind a round that took these. -/
def movedForward (now : Time) (taken feeds : List Feed) : List Feed :=
  updateWhere (fun f => f.id ∈ taken.map Feed.id) (moveForward now) feeds

section Alone

variable {ι : Type*} [DecidableEq ι] {p : ι} {now : Time} {limit : ℕ}

/-- One more step of a run alone. -/
theorem reach_of_step {c₀ : Schedulers ι} {loc : ι → Run} {a : Action} {r r' : Run}
    {s s' : Store} (h : Reach next anyMove c₀ ⟨s, Function.update loc p r⟩)
    (hstep : step a r s = some (r', s')) :
    Reach next anyMove c₀ ⟨s', Function.update loc p r'⟩ := by
  refine .step (m := .proc p a) h trivial (Config.next_proc.mpr ⟨r', s', ?_, ?_⟩)
  · rw [← hstep]
    exact congrArg (fun r => step a r s) (Function.update_self ..)
  · exact congrArg (Config.mk s') (Function.update_idem ..).symm

/-- A row that is there, due and found by its id. -/
theorem recheck_of_mem {f : Feed} {feeds : List Feed} (hids : (feeds.map Feed.id).Nodup)
    (hf : f ∈ feeds) (hdue : f.isDue now = true) : recheck now f feeds = some f := by
  cases hfind : recheck now f feeds with
  | none =>
    rw [recheck, List.find?_eq_none] at hfind
    exact absurd (by simp [hdue]) (hfind f hf)
  | some g =>
    obtain ⟨hg, hid, -⟩ := recheck_eq_some hfind
    rw [List.inj_on_of_nodup_map hids hg hf hid]

/-- The candidates are locked one by one, until there are enough. -/
theorem reach_selected {c₀ : Schedulers ι} {loc : ι → Run} {feeds : List Feed} {log : List Event}
    (hids : (feeds.map Feed.id).Nodup) (rest taken : List Feed)
    (hrest : ∀ f ∈ rest, f ∈ feeds ∧ f.isDue now = true)
    (hnodup : ((taken ++ rest).map Feed.id).Nodup) (hroom : taken.length ≤ limit)
    {locked : List ℕ} (hlocked : ∀ i, i ∈ locked ↔ i ∈ taken.map Feed.id)
    (h : Reach next anyMove c₀
      ⟨⟨feeds, locked, log⟩, Function.update loc p (.selecting now limit rest (taken.map taskOf))⟩) :
    ∃ locked', (∀ i, i ∈ locked' ↔ i ∈ ((taken ++ rest).take limit).map Feed.id) ∧
      Reach next anyMove c₀ ⟨⟨feeds, locked', log⟩,
        Function.update loc p (.selected now (((taken ++ rest).take limit).map taskOf))⟩ := by
  induction rest generalizing taken locked with
  | nil =>
    rw [List.append_nil, List.take_of_length_le hroom]
    exact ⟨locked, hlocked, reach_of_step (a := .candidate) h rfl⟩
  | cons f rest ih =>
    by_cases hfull : limit ≤ taken.length
    · -- the limit is reached
      have htake : (taken ++ f :: rest).take limit = taken := by
        rw [List.take_append_of_le_length (le_of_eq (le_antisymm hfull hroom)),
          List.take_of_length_le hroom]
      rw [htake]
      refine ⟨locked, hlocked, reach_of_step (a := .candidate) h ?_⟩
      simp only [step, List.length_map, if_pos hfull]
    · obtain ⟨hf, hdue⟩ := hrest f List.mem_cons_self
      have hfree : f.id ∉ locked := by
        rw [hlocked]
        intro hin
        rw [List.map_append, List.map_cons] at hnodup
        exact (List.nodup_append.mp hnodup).2.2 _ hin _ List.mem_cons_self rfl
      have happ : taken ++ f :: rest = (taken ++ [f]) ++ rest := by simp
      rw [happ] at hnodup ⊢
      have hroom' : (taken ++ [f]).length ≤ limit := by
        rw [List.length_append, List.length_singleton]
        omega
      have hlocked' : ∀ i, i ∈ f.id :: locked ↔ i ∈ (taken ++ [f]).map Feed.id := fun i => by
        simp [hlocked, or_comm]
      refine ih _ (fun g hg => hrest g (List.mem_cons_of_mem _ hg)) hnodup hroom' hlocked' ?_
      have hstep : step .candidate (.selecting now limit (f :: rest) (taken.map taskOf))
          ⟨feeds, locked, log⟩ = some (.selecting now limit rest ((taken ++ [f]).map taskOf),
            ⟨feeds, f.id :: locked, log⟩) := by
        simp only [step, List.length_map, if_neg hfull, if_neg hfree, recheck_of_mem hids hf hdue,
          List.map_append, List.map_cons, List.map_nil]
      exact reach_of_step h hstep

/-- The tasks are queued one by one. -/
theorem reach_done {c₀ : Schedulers ι} {loc : ι → Run} {feeds : List Feed} {locked : List ℕ}
    {due : List FetchTask} {log : List Event}
    (h : Reach next anyMove c₀
      ⟨⟨feeds, locked, log⟩, Function.update loc p (.publishing now due)⟩) :
    Reach next anyMove c₀ ⟨⟨feeds, locked, (due.map (Event.published now)).reverse ++ log⟩,
      Function.update loc p .done⟩ := by
  induction due generalizing log with
  | nil => exact reach_of_step (a := .publish) h rfl
  | cons x due ih =>
    have hnext := ih (reach_of_step (a := .publish) h rfl)
    simpa using hnext

/-- **A run with nobody else at it** takes the first candidates, moves them forward and
queues a task for each. -/
theorem round_alone (limit : ℕ) {c : Schedulers ι} (hidle : c.loc p = .idle) (hfree : c.shared.locked = [])
    (hids : (c.shared.feeds.map Feed.id).Nodup) {candidates : List Feed}
    (hcand : Candidates now c.shared.feeds candidates) :
    ∃ c', Reach next anyMove c c' ∧ c'.loc = Function.update c.loc p .done ∧
      c'.shared.locked = [] ∧
        c'.shared.feeds = movedForward now (candidates.take limit) c.shared.feeds ∧
          ∀ e, e ∈ c'.shared.log ↔
            (∃ f ∈ candidates.take limit, e = .published now (taskOf f)) ∨
              (∃ f ∈ c.shared.feeds, f.id ∈ (candidates.take limit).map Feed.id ∧
                e = .moved now f (moveForward now f)) ∨ e ∈ c.shared.log := by
  obtain ⟨⟨feeds, locked, log⟩, loc⟩ := c
  dsimp only at hidle hfree hids hcand ⊢
  subst hfree
  have hstart : Reach next anyMove (⟨⟨feeds, [], log⟩, loc⟩ : Schedulers ι)
      ⟨⟨feeds, [], log⟩, Function.update loc p .idle⟩ := by
    rw [← hidle, Function.update_eq_self]
    exact .refl
  have hbegin := reach_of_step (a := .begin now limit) hstart rfl
  have hselect : Reach next anyMove (⟨⟨feeds, [], log⟩, loc⟩ : Schedulers ι)
      ⟨⟨feeds, [], log⟩, Function.update loc p (.selecting now limit candidates [])⟩ :=
    reach_of_step (a := .select candidates) hbegin (by rw [step, if_pos hcand])
  have hdue : ∀ f ∈ candidates, f ∈ feeds ∧ f.isDue now = true := fun f hf => by
    simpa using hcand.1.subset hf
  have hnodup : (candidates.map Feed.id).Nodup :=
    ((hcand.1.map Feed.id).nodup_iff).mpr (hids.sublist (List.filter_sublist.map Feed.id))
  have hnone : ∀ i, i ∈ ([] : List ℕ) ↔ i ∈ ([] : List Feed).map Feed.id := fun _ => Iff.rfl
  obtain ⟨locked, hlocked, hselected⟩ :=
    reach_selected hids candidates [] hdue hnodup (Nat.zero_le limit) hnone hselect
  simp only [List.nil_append] at hlocked hselected
  set taken := candidates.take limit with htaken
  have hupdated := reach_of_step (a := .update) hselected rfl
  have hcommitted := reach_of_step (a := .commit) hupdated rfl
  have hdone := reach_done hcommitted
  have hheld : (taken.map taskOf).map FetchTask.feed = taken.map Feed.id := by
    rw [List.map_map]
    rfl
  refine ⟨_, hdone, rfl, ?_, ?_, fun e => ?_⟩
  · show (locked.filter fun i => i ∉ (taken.map taskOf).map FetchTask.feed) = []
    rw [hheld, List.filter_eq_nil_iff]
    intro i hi
    simpa using (hlocked i).mp hi
  · have hfeeds : ((⟨feeds, locked, log⟩ : Store).commit now
        (newVersions now (taken.map Feed.id) feeds) (taken.map Feed.id)).feeds =
          movedForward now taken feeds := feeds_commit (s := ⟨feeds, locked, log⟩) hids _
    rw [← hheld] at hfeeds
    exact hfeeds
  · have hmoved : e ∈ moves now (newVersions now (taken.map Feed.id) feeds) feeds ↔
        ∃ f ∈ feeds, f.id ∈ taken.map Feed.id ∧ e = .moved now f (moveForward now f) :=
      mem_moves (s := ⟨feeds, locked, log⟩) hids
    rw [← hheld] at hmoved ⊢
    show e ∈ ((taken.map taskOf).map (Event.published now)).reverse ++
      (moves now (newVersions now ((taken.map taskOf).map FetchTask.feed) feeds) feeds ++ log) ↔ _
    rw [List.mem_append, List.mem_append, List.mem_reverse, hmoved, List.map_map, List.mem_map]
    simp only [Function.comp_apply, eq_comm]

end Alone

/-! ### Rounds -/

/-- The feeds between two rounds, the time, the rounds so far and the feeds they queued. -/
structure Rounds where
  feeds : List Feed
  clock : Time
  rounds : ℕ
  queued : List ℕ

inductive Turn
  | tick (later : ℕ)
  | round (candidates : List Feed)
  | write (f : Feed)

/-- Time passes, a run of `enqueue_due_feeds` takes its turn, or anyone else writes a row. -/
def turn (limit : ℕ) : Turn → Rounds → Option Rounds
  | .tick later, r => some { r with clock := r.clock + later }
  | .round candidates, r =>
    if Candidates r.clock r.feeds candidates then
      some { r with
        feeds := movedForward r.clock (candidates.take limit) r.feeds
        rounds := r.rounds + 1
        queued := (candidates.take limit).map Feed.id ++ r.queued }
    else none
  | .write f, r => some { r with feeds := put Feed.id f r.feeds }

/-- The feeds that may be taken before `x`. -/
def ahead (x : Feed) (feeds : List Feed) : ℕ :=
  feeds.countP fun f => f.id ≠ x.id && f.nextFetchAt ≤ x.nextFetchAt

/-- Others leave `x` alone, and bring no feed before it. -/
def Spares (x : Feed) : Rounds → Turn → Prop
  | r, .write f => f.id ≠ x.id ∧ 0 < f.intervalSeconds ∧
      (x.nextFetchAt < f.nextFetchAt ∨
        ∃ row ∈ r.feeds, row.id = f.id ∧ row.nextFetchAt = f.nextFetchAt)
  | _, _ => True

/-- What holds while `x` waits. -/
structure Waiting (limit : ℕ) (x : Feed) (start : ℕ) (r : Rounds) : Prop where
  there : x ∈ r.feeds
  due : x.isDue r.clock = true
  ids : (r.feeds.map Feed.id).Nodup
  positive : ∀ f ∈ r.feeds, 0 < f.intervalSeconds
  spent : limit * r.rounds + ahead x r.feeds ≤ start

variable {limit start : ℕ} {x : Feed} {r r' : Rounds}

theorem isDue_mono {now now' : Time} (h : now ≤ now') (hdue : x.isDue now = true) :
    x.isDue now' = true := by
  simp only [Feed.isDue, Bool.and_eq_true, decide_eq_true_eq] at hdue ⊢
  obtain ⟨⟨⟨hnext, hactive⟩, hlive⟩, huntil⟩ := hdue
  refine ⟨⟨⟨hnext.trans h, hactive⟩, hlive⟩, ?_⟩
  cases hd : x.disabledUntil with
  | none => rfl
  | some until_ =>
    rw [hd] at huntil
    have hle : until_ ≤ now := by simpa using huntil
    simpa using hle.trans h

/-- A round that leaves `x` out takes a full batch of the feeds ahead of it. -/
theorem Waiting.round {candidates : List Feed} (h : Waiting limit x start r)
    (hcand : Candidates r.clock r.feeds candidates) (hno : x ∉ candidates.take limit) :
    Waiting limit x start { r with
      feeds := movedForward r.clock (candidates.take limit) r.feeds
      rounds := r.rounds + 1
      queued := (candidates.take limit).map Feed.id ++ r.queued } := by
  have hmem : ∀ f ∈ candidates, f ∈ r.feeds ∧ f.isDue r.clock = true := fun f hf => by
    simpa using hcand.1.subset hf
  have hx : x ∈ candidates :=
    hcand.1.symm.subset (List.mem_filter.mpr ⟨h.there, h.due⟩)
  have htaken : ∀ f ∈ candidates.take limit, f ∈ r.feeds := fun f hf =>
    (hmem f (List.mem_of_mem_take hf)).1
  have hkept : x.id ∉ (candidates.take limit).map Feed.id := by
    intro hin
    obtain ⟨f, hf, hid⟩ := List.mem_map.mp hin
    rw [List.inj_on_of_nodup_map h.ids (htaken f hf) h.there hid] at hf
    exact hno hf
  have hnodup : (candidates.take limit).Nodup :=
    (List.take_sublist ..).nodup (hcand.1.nodup_iff.mpr (h.ids.of_map.filter _))
  have hstep : ahead x (movedForward r.clock (candidates.take limit) r.feeds) +
      (candidates.take limit).length ≤ ahead x r.feeds :=
    countP_updateWhere_add_le (fun f hf _ => ?_) hnodup (fun f hf => ?_)
  · -- the batch is full, and none of it is ahead any more
    have hfull := length_take_of_notMem hx hno
    refine ⟨mem_updateWhere_of_not h.there (by simpa using hkept), h.due, ?_, ?_, ?_⟩
    · show ((movedForward r.clock (candidates.take limit) r.feeds).map Feed.id).Nodup
      rw [movedForward, map_updateWhere (id_moveForward r.clock)]
      exact h.ids
    · intro f hf
      obtain ⟨g, hg, rfl⟩ := mem_updateWhere.mp hf
      split
      · exact h.positive g hg
      · exact h.positive g hg
    · show limit * (r.rounds + 1) +
        ahead x (movedForward r.clock (candidates.take limit) r.feeds) ≤ start
      rw [hfull] at hstep
      calc limit * (r.rounds + 1) + ahead x (movedForward r.clock (candidates.take limit) r.feeds)
          = limit * r.rounds +
              (ahead x (movedForward r.clock (candidates.take limit) r.feeds) + limit) := by
            rw [Nat.mul_add, Nat.mul_one]
            omega
        _ ≤ limit * r.rounds + ahead x r.feeds := Nat.add_le_add_left hstep _
        _ ≤ start := h.spent
  · -- the clock has reached the time of `x`
    have hpos := h.positive f hf
    have hclock : x.nextFetchAt ≤ r.clock := by
      have hdue := h.due
      simp only [Feed.isDue, Bool.and_eq_true, decide_eq_true_eq] at hdue
      exact hdue.1.1.1
    have hlater : ¬ (moveForward r.clock f).nextFetchAt ≤ x.nextFetchAt := by
      have hgap : 0 < (f.intervalSeconds : Time) * second :=
        Int.mul_pos (by exact_mod_cast hpos) (by decide)
      exact not_le.mpr (hclock.trans_lt (Int.lt_add_of_pos_right _ hgap))
    simp [hlater]
  · refine ⟨htaken f hf, ?_, decide_eq_true (List.mem_map_of_mem hf)⟩
    have hne : f.id ≠ x.id := fun hid => hkept (hid ▸ List.mem_map_of_mem hf)
    have hle := le_of_mem_take hcand.2 hx hno hf
    simp [hne, hle]

/-- A write of another row brings none ahead. -/
theorem Waiting.write {f : Feed} (h : Waiting limit x start r) (hok : Spares x r (.write f)) :
    Waiting limit x start { r with feeds := put Feed.id f r.feeds } := by
  obtain ⟨hne, hpos, hlater⟩ := hok
  have hahead : ahead x (put Feed.id f r.feeds) ≤ ahead x r.feeds := by
    refine countP_put_le (fun hp => ?_) (fun hp row hrow hid => ?_)
    · obtain ⟨-, hle⟩ : f.id ≠ x.id ∧ f.nextFetchAt ≤ x.nextFetchAt := by simpa using hp
      obtain hlt | ⟨row, hrow, hid, -⟩ := hlater
      · exact absurd hle (not_le.mpr hlt)
      · exact ⟨row, hrow, hid⟩
    · obtain ⟨-, hle⟩ : f.id ≠ x.id ∧ f.nextFetchAt ≤ x.nextFetchAt := by simpa using hp
      obtain hlt | ⟨row', hrow', hid', hnext⟩ := hlater
      · exact absurd hle (not_le.mpr hlt)
      · rw [List.inj_on_of_nodup_map h.ids hrow' hrow (hid'.trans hid.symm)] at hnext
        simp [hid, hne, hnext, hle]
  refine ⟨mem_put_of_ne h.there (Ne.symm hne), h.due, nodup_put h.ids f, fun g hg => ?_, ?_⟩
  · rcases mem_put hg with rfl | ⟨hg, -⟩
    · exact hpos
    · exact h.positive g hg
  · exact (Nat.add_le_add_left hahead _).trans h.spent

/-- One turn. -/
theorem waiting_turn {m : Turn} (h : x.id ∈ r.queued ∨ Waiting limit x start r)
    (hok : Spares x r m) (hturn : turn limit m r = some r') :
    x.id ∈ r'.queued ∨ Waiting limit x start r' := by
  cases m with
  | tick later =>
    cases hturn
    refine h.imp id fun h => ⟨h.there, isDue_mono ?_ h.due, h.ids, h.positive, h.spent⟩
    exact Int.le_add_of_nonneg_right (Int.natCast_nonneg later)
  | write f =>
    cases hturn
    exact h.imp id fun h => h.write hok
  | round candidates =>
    rw [turn] at hturn
    split at hturn
    · rename_i hcand
      cases hturn
      rcases h with hin | h
      · exact .inl (List.mem_append_right _ hin)
      · by_cases hx : x ∈ candidates.take limit
        · exact .inl (List.mem_append_left _ (List.mem_map_of_mem hx))
        · exact .inr (h.round hcand hx)
    · cases hturn

/-! ### Rounds are runs -/

/-- The scheduler between two rounds. -/
structure Between (c₀ : Schedulers ℕ) (r : Rounds) (c : Schedulers ℕ) : Prop where
  reach : Reach next anyMove c₀ c
  feeds : c.shared.feeds = r.feeds
  ids : (r.feeds.map Feed.id).Nodup
  free : c.shared.locked = []
  idle : ∀ p, r.rounds ≤ p → c.loc p = .idle
  queued : ∀ i ∈ r.queued, ∃ now x, .published now x ∈ c.shared.log ∧ x.feed = i

/-- Every turn is a run of the scheduler, a round one of a process of its own. -/
theorem Between.turn {c₀ c : Schedulers ℕ} {m : Turn} (h : Between c₀ r c)
    (hturn : turn limit m r = some r') : ∃ c', Between c₀ r' c' := by
  cases m with
  | tick later =>
    cases hturn
    exact ⟨c, h.reach, h.feeds, h.ids, h.free, h.idle, h.queued⟩
  | write f =>
    cases hturn
    refine ⟨⟨{ c.shared with feeds := put Feed.id f c.shared.feeds }, c.loc⟩,
      .step (m := .env f) h.reach trivial (Config.next_env.mpr ⟨_, ?_, rfl⟩),
      congrArg (put Feed.id f) h.feeds, nodup_put h.ids f, h.free, h.idle, h.queued⟩
    rw [edit, if_neg (by simp [h.free])]
  | round candidates =>
    rw [Scheduler.turn] at hturn
    split at hturn
    · rename_i hcand
      cases hturn
      rw [← h.feeds] at hcand
      obtain ⟨c', hrun, hloc, hfree, hfeeds, hlog⟩ := round_alone limit
        (h.idle r.rounds le_rfl) h.free (by rw [h.feeds]; exact h.ids) hcand
      rw [h.feeds] at hfeeds
      refine ⟨c', h.reach.trans hrun, hfeeds, ?_, hfree, fun p hp => ?_, fun i hi => ?_⟩
      · show ((movedForward r.clock (candidates.take limit) r.feeds).map Feed.id).Nodup
        rw [movedForward, map_updateWhere (id_moveForward r.clock)]
        exact h.ids
      · have hp : r.rounds + 1 ≤ p := hp
        rw [hloc, Function.update_of_ne (by omega)]
        exact h.idle p (by omega)
      · rcases List.mem_append.mp hi with hi | hi
        · obtain ⟨f, hf, rfl⟩ := List.mem_map.mp hi
          exact ⟨r.clock, taskOf f, (hlog _).mpr (.inl ⟨f, hf, rfl⟩), rfl⟩
        · obtain ⟨now, x, hx, hid⟩ := h.queued i hi
          exact ⟨now, x, (hlog _).mpr (.inr (.inr hx)), hid⟩
    · cases hturn

/-- **A feed that is due is taken.**  The rounds are a run of the scheduler; those that
leave the feed out take a full batch each of the feeds that were ahead of it, so there are
no more of them than fill that many. -/
theorem due_feed_is_taken {r₀ : Rounds} {c₀ : Schedulers ℕ} (hidle : ∀ p, c₀.loc p = .idle)
    (hfree : c₀.shared.locked = []) (hx : x ∈ c₀.shared.feeds) (hdue : x.isDue r₀.clock = true)
    (hids : (c₀.shared.feeds.map Feed.id).Nodup)
    (hpos : ∀ f ∈ c₀.shared.feeds, 0 < f.intervalSeconds)
    (hstart : r₀.feeds = c₀.shared.feeds ∧ r₀.rounds = 0 ∧ r₀.queued = [])
    (h : Reach (turn limit) (Spares x) r₀ r) :
    ∃ c, Reach next anyMove c₀ c ∧ c.shared.feeds = r.feeds ∧
      ((∃ now task, .published now task ∈ c.shared.log ∧ task.feed = x.id) ∨
        limit * r.rounds ≤ ahead x c₀.shared.feeds) := by
  obtain ⟨hfeeds, hrounds, hqueued⟩ := hstart
  rw [← hfeeds] at hx hids hpos ⊢
  have hwait : x.id ∈ r.queued ∨ Waiting limit x (ahead x r₀.feeds) r := by
    refine h.invariant (I := fun r => x.id ∈ r.queued ∨ Waiting limit x (ahead x r₀.feeds) r)
      (.inr ⟨hx, hdue, hids, hpos, by rw [hrounds]; omega⟩) ?_
    exact fun _ _ _ hr hok hturn => waiting_turn hr hok hturn
  have hbetween : ∃ c, Between c₀ r c := by
    refine h.invariant (I := fun r => ∃ c, Between c₀ r c) ?_ ?_
    · refine ⟨c₀, .refl, hfeeds.symm, hids, hfree, fun p _ => hidle p, fun i hi => ?_⟩
      rw [hqueued] at hi
      cases hi
    · exact fun _ _ _ ⟨_, hc⟩ _ hturn => hc.turn hturn
  obtain ⟨c, hc⟩ := hbetween
  refine ⟨c, hc.reach, hc.feeds, hwait.imp (hc.queued x.id) fun hwait => ?_⟩
  exact (Nat.le_add_right ..).trans hwait.spent

/-- Three feeds that are due, and batches of one. -/
def threeDue : List Feed :=
  [{ everyMinute with id := 3, nextFetchAt := 2 }, everyMinute,
    { everyMinute with id := 2, nextFetchAt := 1 }]

def threeRounds : List Turn :=
  [.round [everyMinute, { everyMinute with id := 2, nextFetchAt := 1 },
      { everyMinute with id := 3, nextFetchAt := 2 }],
    .tick 5,
    .round [{ everyMinute with id := 2, nextFetchAt := 1 },
      { everyMinute with id := 3, nextFetchAt := 2 }]]

theorem due_feed_is_taken_third :
    ∃ r, Reach (turn 1) (Spares { everyMinute with id := 3, nextFetchAt := 2 })
        ⟨threeDue, 10, 0, []⟩ r ∧ r.rounds = 2 ∧
      ∃ c : Schedulers ℕ, Reach next anyMove ⟨⟨threeDue, [], []⟩, fun _ => .idle⟩ c ∧
        c.shared.feeds = r.feeds ∧
        ((∃ now task, .published now task ∈ c.shared.log ∧ task.feed = 3) ∨ 1 * r.rounds ≤ 2) := by
  have hrun : (exec (turn 1) threeRounds ⟨threeDue, 10, 0, []⟩).map Rounds.rounds = some 2 := by
    decide
  have hspares : ∀ m ∈ threeRounds, ∀ r,
      Spares { everyMinute with id := 3, nextFetchAt := 2 } r m := by
    intro m hm r
    cases m with
    | write f => simp [threeRounds] at hm
    | _ => exact trivial
  obtain ⟨r, hreach, hrounds⟩ := Reach.exists_of_exec _ hrun (along_of_forall hspares _)
  have hidle : ∀ p : ℕ, (⟨⟨threeDue, [], []⟩, fun _ => .idle⟩ : Schedulers ℕ).loc p = .idle :=
    fun _ => rfl
  exact ⟨r, hreach, hrounds, due_feed_is_taken hidle rfl (by decide) (by decide) (by decide)
    (by decide) ⟨rfl, rfl, rfl⟩ hreach⟩

end Scheduler
