/-
Each due round of a feed is queued once.

The runs are those of `Newsforge.Scheduler`: any number of runs of `enqueue_due_feeds`,
interleaved, with any clocks, and rows written by others that keep `next_fetch_at` and
have a positive interval (`Admissible`).

* `Consistent` — the invariant of the store: who moved a row finds it moved ahead, and
  every queued task has its commit behind it;
* `Sound` — the assertion of one run: what it has read stays so while it holds the locks,
  and what it owes is committed and not queued yet;
* `Apart` — no two runs hold one row, or owe one task.

Main result: `rounds_are_queued_once`.
-/
import Newsforge.Scheduler

open Tables Runs Feeds

namespace Scheduler

variable {now : Time} {due : List FetchTask} {rows : List Feed} {s : Store}

/-! ### Commits -/

theorem id_moveForward (now : Time) (f : Feed) : (moveForward now f).id = f.id := rfl

theorem eq_of_id (hids : (s.feeds.map Feed.id).Nodup) {f g : Feed} (hf : f ∈ s.feeds)
    (hg : g ∈ s.feeds) (h : f.id = g.id) : f = g :=
  List.inj_on_of_nodup_map hids hf hg h

theorem mem_newVersions {ids : List ℕ} {feeds : List Feed} {r : Feed} :
    r ∈ newVersions now ids feeds ↔ ∃ f ∈ feeds, f.id ∈ ids ∧ r = moveForward now f := by
  rw [newVersions, List.mem_map]
  constructor
  · rintro ⟨f, hf, rfl⟩
    obtain ⟨hmem, hid⟩ := List.mem_filter.mp hf
    exact ⟨f, hmem, of_decide_eq_true hid, rfl⟩
  · rintro ⟨f, hmem, hid, rfl⟩
    exact ⟨f, List.mem_filter.mpr ⟨hmem, decide_eq_true hid⟩, rfl⟩

/-- A commit of the new versions moves the rows with these ids. -/
theorem installed_newVersions (hids : (s.feeds.map Feed.id).Nodup) (ids : List ℕ) {f : Feed}
    (hf : f ∈ s.feeds) : installed (newVersions now ids s.feeds) f =
      if f.id ∈ ids then moveForward now f else f := by
  rw [installed]
  cases hfind : (newVersions now ids s.feeds).find? (fun r => r.id == f.id) with
  | none =>
    have hno : f.id ∉ ids := by
      intro hid
      have hmem : moveForward now f ∈ newVersions now ids s.feeds :=
        mem_newVersions.mpr ⟨f, hf, hid, rfl⟩
      have hne := List.find?_eq_none.mp hfind _ hmem
      exact hne (beq_self_eq_true f.id)
    rw [if_neg hno, Option.getD_none]
  | some r =>
    obtain ⟨g, hg, hid, rfl⟩ := mem_newVersions.mp (List.mem_of_find?_eq_some hfind)
    have hsame := List.find?_some hfind
    rw [beq_iff_eq, id_moveForward] at hsame
    obtain rfl := eq_of_id hids hg hf hsame
    rw [if_pos hid, Option.getD_some]

/-- What a commit of the new versions replaces. -/
theorem mem_moves (hids : (s.feeds.map Feed.id).Nodup) {ids : List ℕ} {e : Event} :
    e ∈ moves now (newVersions now ids s.feeds) s.feeds ↔
      ∃ f ∈ s.feeds, f.id ∈ ids ∧ e = .moved now f (moveForward now f) := by
  have hany : ∀ f ∈ s.feeds,
      ((newVersions now ids s.feeds).any fun r => r.id == f.id) = true ↔ f.id ∈ ids := by
    intro f hf
    rw [List.any_eq_true]
    constructor
    · rintro ⟨r, hr, hid⟩
      obtain ⟨g, -, hg, rfl⟩ := mem_newVersions.mp hr
      exact eq_of_beq hid ▸ hg
    · intro hid
      exact ⟨_, mem_newVersions.mpr ⟨f, hf, hid, rfl⟩, beq_self_eq_true f.id⟩
  rw [moves, List.mem_map]
  constructor
  · rintro ⟨f, hf, rfl⟩
    obtain ⟨hmem, hp⟩ := List.mem_filter.mp hf
    have hid := (hany f hmem).mp hp
    exact ⟨f, hmem, hid, by rw [installed_newVersions hids ids hmem, if_pos hid]⟩
  · rintro ⟨f, hmem, hid, rfl⟩
    exact ⟨f, List.mem_filter.mpr ⟨hmem, (hany f hmem).mpr hid⟩,
      by rw [installed_newVersions hids ids hmem, if_pos hid]⟩

/-- The feeds behind a commit. -/
theorem feeds_commit (hids : (s.feeds.map Feed.id).Nodup) (ids : List ℕ) :
    (s.commit now (newVersions now ids s.feeds) ids).feeds =
      updateWhere (fun f => f.id ∈ ids) (moveForward now) s.feeds := by
  refine List.map_congr_left fun f hf => ?_
  rw [installed_newVersions hids ids hf]
  by_cases hid : f.id ∈ ids
  · rw [if_pos hid, if_pos (decide_eq_true hid)]
  · rw [if_neg hid, if_neg (by simpa using hid)]

/-! ### The assertions -/

/-- The commit of a run with the time `now` that made the task due. -/
def MovedFor (log : List Event) (now : Time) (x : FetchTask) : Prop :=
  ∃ before after, .moved now before after ∈ log ∧ taskOf before = x

/-- Every queued task has its commit behind it. -/
def Backed : List Event → Prop
  | [] => True
  | e :: log => (∀ now x, e = .published now x → MovedFor log now x) ∧ Backed log

/-- The invariant of the store. -/
structure Consistent (s : Store) : Prop where
  ids : (s.feeds.map Feed.id).Nodup
  positive : ∀ f ∈ s.feeds, 0 < f.intervalSeconds
  ahead : ∀ now before after, .moved now before after ∈ s.log →
    ∃ f ∈ s.feeds, f.id = before.id ∧ now + before.intervalSeconds * second ≤ f.nextFetchAt
  moved : ∀ now before after, .moved now before after ∈ s.log →
    before.isDue now = true ∧ 0 < before.intervalSeconds ∧ after = moveForward now before
  spaced : ∀ now before after now' before' after', .moved now before after ∈ s.log →
    .moved now' before' after' ∈ s.log → before.id = before'.id → now ≠ now' →
    now + before.intervalSeconds * second ≤ now' ∨ now' + before'.intervalSeconds * second ≤ now
  backed : Backed s.log
  once : s.log.Pairwise fun e e' => ∀ now x now' x', e = .published now x →
    e' = .published now' x' → x.feed = x'.feed → now ≠ now'

/-- The rows that a run has locked and read. -/
structure HasRead (now : Time) (due : List FetchTask) (s : Store) : Prop where
  locked : ∀ x ∈ due, x.feed ∈ s.locked
  nodup : (due.map FetchTask.feed).Nodup
  rows : ∀ x ∈ due, ∃ f ∈ s.feeds, taskOf f = x ∧ f.isDue now = true

/-- The tasks that a run has yet to queue. -/
structure Owes (now : Time) (due : List FetchTask) (s : Store) : Prop where
  nodup : (due.map FetchTask.feed).Nodup
  moved : ∀ x ∈ due, MovedFor s.log now x
  unpublished : ∀ x ∈ due, ∀ y, .published now y ∈ s.log → y.feed ≠ x.feed

/-- What holds of a run. -/
def Sound : Run → Store → Prop
  | .selecting now _ _ due, s => HasRead now due s
  | .selected now due, s => HasRead now due s
  | .updated now due rows, s =>
    HasRead now due s ∧ rows = newVersions now (due.map FetchTask.feed) s.feeds
  | .publishing now due, s => Owes now due s
  | _, _ => True

/-- The tasks that a run has yet to queue, with its time. -/
def Run.owed : Run → List (Time × ℕ)
  | .publishing now due => due.map fun x => (now, x.feed)
  | _ => []

/-- No two runs hold one row, or owe one task. -/
def Apart (r q : Run) : Prop :=
  (∀ i ∈ r.held, i ∉ q.held) ∧ ∀ k ∈ r.owed, k ∉ q.owed

theorem Apart.symm {r q : Run} (h : Apart r q) : Apart q r :=
  ⟨fun i hi hr => h.1 i hr hi, fun k hk hr => h.2 k hr hk⟩

/-! ### Times -/

theorem nextFetchAt_le {f : Feed} (h : f.isDue now = true) : f.nextFetchAt ≤ now := by
  simp only [Feed.isDue, Bool.and_eq_true, decide_eq_true_eq] at h
  exact h.1.1.1

theorem lt_add_interval {f : Feed} (h : 0 < f.intervalSeconds) (now : Time) :
    now < now + f.intervalSeconds * second := by
  have hsecond : (0 : Int) < f.intervalSeconds * second :=
    Int.mul_pos (Int.natCast_pos.mpr h) (by decide)
  exact Int.lt_add_of_pos_right now hsecond

/-- **A row that is due was moved in earlier rounds only.** -/
theorem Consistent.earlier (h : Consistent s) {f : Feed} (hf : f ∈ s.feeds)
    (hdue : f.isDue now = true) {now' : Time} {before after : Feed}
    (hmoved : .moved now' before after ∈ s.log) (hid : before.id = f.id) :
    now' + before.intervalSeconds * second ≤ now ∧ now' ≠ now := by
  obtain ⟨g, hg, hgid, hahead⟩ := h.ahead now' before after hmoved
  have hsame : g = f := eq_of_id h.ids hg hf (hgid.trans hid)
  have hle : now' + before.intervalSeconds * second ≤ now :=
    (hsame ▸ hahead).trans (nextFetchAt_le hdue)
  refine ⟨hle, ?_⟩
  rintro rfl
  exact absurd hle (Int.not_le.mpr (lt_add_interval (h.moved _ _ _ hmoved).2.1 now'))

theorem MovedFor.mono {log log' : List Event} {x : FetchTask} (h : MovedFor log now x)
    (hsub : ∀ e ∈ log, e ∈ log') : MovedFor log' now x := by
  obtain ⟨before, after, hmem, hx⟩ := h
  exact ⟨before, after, hsub _ hmem, hx⟩

theorem Backed.movedFor {later earlier : List Event} {x : FetchTask}
    (h : Backed (later ++ .published now x :: earlier)) : MovedFor earlier now x := by
  induction later with
  | nil => exact h.1 now x rfl
  | cons e later ih => exact ih h.2

/-- What was queued was moved. -/
theorem Consistent.movedFor (h : Consistent s) {x : FetchTask} (hx : .published now x ∈ s.log) :
    MovedFor s.log now x := by
  obtain ⟨later, earlier, hlog⟩ := List.append_of_mem hx
  have hbacked := h.backed
  rw [hlog] at hbacked ⊢
  exact hbacked.movedFor.mono fun e he => List.mem_append_right _ (List.mem_cons_of_mem _ he)

/-- A run that holds a row has not been through with it. -/
theorem HasRead.not_movedFor (h : HasRead now due s) (hs : Consistent s) {x y : FetchTask}
    (hx : x ∈ due) (hy : MovedFor s.log now y) : y.feed ≠ x.feed := by
  obtain ⟨f, hf, rfl, hdue⟩ := h.rows x hx
  obtain ⟨before, after, hmoved, rfl⟩ := hy
  intro hid
  exact (hs.earlier hf hdue hmoved hid).2 rfl

/-! ### What a step leaves alone -/

/-- A step of others: what the run `q` has locked and read, and what it owes, is as
before. -/
structure Keeps (q : Run) (s s' : Store) : Prop where
  locked : ∀ i ∈ q.held, i ∈ s.locked → i ∈ s'.locked
  feeds : (s'.feeds.filter fun f => f.id ∈ q.held) = s.feeds.filter fun f => f.id ∈ q.held
  log : ∀ e ∈ s.log, e ∈ s'.log
  unpublished : ∀ now x, .published now x ∈ s'.log →
    .published now x ∈ s.log ∨ (now, x.feed) ∉ q.owed

theorem Keeps.of_eq {q : Run} {s' : Store} (hlocked : ∀ i ∈ q.held, i ∈ s.locked → i ∈ s'.locked)
    (hfeeds : s'.feeds = s.feeds) (hlog : s'.log = s.log) : Keeps q s s' where
  locked := hlocked
  feeds := by rw [hfeeds]
  log e he := hlog ▸ he
  unpublished now x hx := .inl (hlog ▸ hx)

theorem Keeps.refl (q : Run) (s : Store) : Keeps q s s := .of_eq (fun _ _ hi => hi) rfl rfl

theorem HasRead.keeps {q : Run} {s' : Store} (h : HasRead now due s) (hk : Keeps q s s')
    (hheld : q.held = due.map FetchTask.feed) : HasRead now due s' where
  locked x hx := hk.locked _ (hheld ▸ List.mem_map_of_mem hx) (h.locked x hx)
  nodup := h.nodup
  rows x hx := by
    obtain ⟨f, hf, rfl, hdue⟩ := h.rows x hx
    have hid : f.id ∈ q.held := hheld ▸ List.mem_map.mpr ⟨_, hx, rfl⟩
    have hmem : f ∈ s.feeds.filter fun f => f.id ∈ q.held :=
      List.mem_filter.mpr ⟨hf, decide_eq_true hid⟩
    rw [← hk.feeds] at hmem
    exact ⟨f, (List.mem_filter.mp hmem).1, rfl, hdue⟩

/-- What holds of a run survives the steps of others. -/
theorem Sound.keeps {q : Run} {s' : Store} (h : Sound q s) (hk : Keeps q s s') : Sound q s' := by
  cases q with
  | idle => exact trivial
  | begun now limit => exact trivial
  | selecting now limit candidates due => exact HasRead.keeps h hk rfl
  | selected now due => exact HasRead.keeps h hk rfl
  | updated now due rows =>
    obtain ⟨hread, hrows⟩ := h
    refine ⟨hread.keeps hk rfl, hrows.trans ?_⟩
    exact congrArg (List.map (moveForward now)) hk.feeds.symm
  | publishing now due =>
    refine ⟨Owes.nodup h, fun x hx => (Owes.moved h x hx).mono hk.log, fun x hx y hy => ?_⟩
    rcases hk.unpublished now y hy with hold | hnew
    · exact Owes.unpublished h x hx y hold
    · intro hsame
      exact hnew (List.mem_map.mpr ⟨x, hx, by rw [hsame]⟩)
  | done => exact trivial

theorem Sound.locked {q : Run} (h : Sound q s) : ∀ i ∈ q.held, i ∈ s.locked := by
  have hread : ∀ {now due}, HasRead now due s → ∀ i ∈ due.map FetchTask.feed, i ∈ s.locked := by
    intro now due hr i hi
    obtain ⟨x, hx, rfl⟩ := List.mem_map.mp hi
    exact hr.locked x hx
  cases q with
  | selecting now limit candidates due => exact hread h
  | selected now due => exact hread h
  | updated now due rows => exact hread h.1
  | _ => exact fun i hi => absurd hi List.not_mem_nil

theorem mem_free {held : List ℕ} {i : ℕ} (hi : i ∈ s.locked) (hno : i ∉ held) :
    i ∈ (s.free held).locked := List.mem_filter.mpr ⟨hi, decide_eq_true hno⟩

theorem not_published_moves {rows feeds : List Feed} {now' : Time} {x : FetchTask} :
    .published now' x ∉ moves now rows feeds := by
  intro hx
  obtain ⟨f, -, hf⟩ := List.mem_map.mp hx
  cases hf

theorem Did.keeps {r r' q : Run} {s' : Store} (h : Did r s r' s') (hs : Consistent s)
    (hr : Sound r s) (hapart : Apart r q) : Keeps q s s' := by
  cases h with
  | locked _ _ _ => exact .of_eq (fun i _ hi => List.mem_cons_of_mem _ hi) rfl rfl
  | died => exact .of_eq (fun i hq hi => mem_free hi (hapart.symm.1 i hq)) rfl rfl
  | @published now x due s =>
    refine ⟨fun _ _ hi => hi, rfl, fun e he => List.mem_cons_of_mem _ he, fun now' y hy => ?_⟩
    rcases List.mem_cons.mp hy with hnew | hold
    · cases hnew
      exact .inr (hapart.2 _ List.mem_cons_self)
    · exact .inl hold
  | @committed now due rows s =>
    obtain ⟨hread, rfl⟩ := hr
    refine ⟨fun i hq hi => mem_free hi (hapart.symm.1 i hq), ?_,
      fun e he => List.mem_append_right _ he, fun now' y hy => .inl ?_⟩
    · rw [feeds_commit hs.ids]
      refine filter_updateWhere fun f _ hf => ?_
      have hno : f.id ∉ q.held := hapart.1 _ (of_decide_eq_true hf)
      exact ⟨decide_eq_false hno, decide_eq_false hno⟩
    · exact (List.mem_append.mp hy).resolve_left not_published_moves
  | _ => exact .refl q s

/-! ### What a step re-establishes -/

theorem Consistent.congr {s' : Store} (h : Consistent s) (hfeeds : s'.feeds = s.feeds)
    (hlog : s'.log = s.log) : Consistent s' := by
  obtain ⟨feeds, locked, log⟩ := s'
  cases hfeeds
  cases hlog
  exact ⟨h.ids, h.positive, h.ahead, h.moved, h.spaced, h.backed, h.once⟩

theorem backed_append {new log : List Event} (hnew : ∀ now x, .published now x ∉ new)
    (h : Backed log) : Backed (new ++ log) := by
  induction new with
  | nil => exact h
  | cons e new ih =>
    refine ⟨?_, ih fun now x hx => hnew now x (List.mem_cons_of_mem _ hx)⟩
    rintro now x rfl
    exact absurd List.mem_cons_self (hnew now x)

/-- The row that a run has read. -/
theorem HasRead.due_of_id (h : HasRead now due s) (hs : Consistent s) {f : Feed} (hf : f ∈ s.feeds)
    (hid : f.id ∈ due.map FetchTask.feed) : f.isDue now = true := by
  obtain ⟨x, hx, hfeed⟩ := List.mem_map.mp hid
  obtain ⟨g, hg, rfl, hdue⟩ := h.rows x hx
  rwa [← eq_of_id hs.ids hg hf hfeed]

theorem Consistent.commit (hs : Consistent s) (h : HasRead now due s) :
    Consistent (s.commit now (newVersions now (due.map FetchTask.feed) s.feeds)
      (due.map FetchTask.feed)) := by
  set ids := due.map FetchTask.feed with hids
  have hfeeds : (s.commit now (newVersions now ids s.feeds) ids).feeds = _ :=
    feeds_commit hs.ids ids
  have hnew : ∀ {e}, e ∈ moves now (newVersions now ids s.feeds) s.feeds →
      ∃ f ∈ s.feeds, f.isDue now = true ∧ f.id ∈ ids ∧ e = .moved now f (moveForward now f) := by
    intro e he
    obtain ⟨f, hf, hid, rfl⟩ := (mem_moves hs.ids).mp he
    exact ⟨f, hf, h.due_of_id hs hf hid, hid, rfl⟩
  refine ⟨?_, ?_, ?_, ?_, ?_, backed_append (fun _ _ => not_published_moves) hs.backed, ?_⟩
  · -- ids
    rw [hfeeds, map_updateWhere (id_moveForward now)]
    exact hs.ids
  · -- positive
    intro f hf
    rw [hfeeds] at hf
    obtain ⟨g, hg, rfl⟩ := mem_updateWhere.mp hf
    have hpos := hs.positive g hg
    split
    · exact hpos
    · exact hpos
  · -- ahead
    intro now' before after he
    rw [hfeeds]
    rcases List.mem_append.mp he with he | he
    · obtain ⟨f, hf, -, hid, heq⟩ := hnew he
      cases heq
      exact ⟨moveForward now before, mem_updateWhere_of hf (decide_eq_true hid), rfl,
        Int.le_refl _⟩
    · obtain ⟨f, hf, hfid, hahead⟩ := hs.ahead now' before after he
      by_cases hid : f.id ∈ ids
      · refine ⟨moveForward now f, mem_updateWhere_of hf (decide_eq_true hid), hfid, ?_⟩
        have hearlier := (hs.earlier hf (h.due_of_id hs hf hid) he hfid.symm).1
        exact hearlier.trans (Int.le_of_lt (lt_add_interval (hs.positive f hf) now))
      · exact ⟨f, mem_updateWhere_of_not hf (decide_eq_false hid), hfid, hahead⟩
  · -- moved
    intro now' before after he
    rcases List.mem_append.mp he with he | he
    · obtain ⟨f, hf, hdue, -, heq⟩ := hnew he
      cases heq
      exact ⟨hdue, hs.positive before hf, rfl⟩
    · exact hs.moved now' before after he
  · -- spaced
    intro now₁ before₁ after₁ now₂ before₂ after₂ he₁ he₂ hid hne
    rcases List.mem_append.mp he₁ with he₁ | he₁
    · obtain ⟨f, hf, hdue, -, heq⟩ := hnew he₁
      cases heq
      rcases List.mem_append.mp he₂ with he₂ | he₂
      · obtain ⟨g, -, -, -, heq⟩ := hnew he₂
        cases heq
        exact absurd rfl hne
      · exact .inr (hs.earlier hf hdue he₂ hid.symm).1
    · rcases List.mem_append.mp he₂ with he₂ | he₂
      · obtain ⟨f, hf, hdue, -, heq⟩ := hnew he₂
        cases heq
        exact .inl (hs.earlier hf hdue he₁ hid).1
      · exact hs.spaced now₁ before₁ after₁ now₂ before₂ after₂ he₁ he₂ hid hne
  · -- once
    refine List.pairwise_append.mpr ⟨?_, hs.once, ?_⟩
    · refine List.Pairwise.imp_of_mem ?_ (List.pairwise_of_forall fun _ _ => trivial)
      rintro e e' he - - now' x - - rfl
      exact absurd he not_published_moves
    · rintro e he e' - now' x - - rfl
      exact absurd he not_published_moves

theorem Consistent.publish (hs : Consistent s) {x : FetchTask} (h : Owes now (x :: due) s) :
    Consistent { s with log := .published now x :: s.log } := by
  have hold : ∀ {now' before after}, .moved now' before after ∈ (.published now x :: s.log) →
      .moved now' before after ∈ s.log := by
    intro now' before after he
    rcases List.mem_cons.mp he with heq | he
    · cases heq
    · exact he
  refine ⟨hs.ids, hs.positive, fun now' before after he => hs.ahead now' before after (hold he),
    fun now' before after he => hs.moved now' before after (hold he),
    fun _ _ _ _ _ _ he₁ he₂ => hs.spaced _ _ _ _ _ _ (hold he₁) (hold he₂), ⟨?_, hs.backed⟩,
    List.pairwise_cons.mpr ⟨?_, hs.once⟩⟩
  · rintro now' y heq
    cases heq
    exact h.moved x List.mem_cons_self
  · intro e' he' now₁ y now₂ y' heq heq' hfeed
    cases heq
    cases heq'
    rintro rfl
    exact h.unpublished x List.mem_cons_self y' he' hfeed.symm

/-- The step of a run, for the store and for the run itself. -/
theorem Did.own {r r' : Run} {s' : Store} (h : Did r s r' s') (hs : Consistent s)
    (hr : Sound r s) : Consistent s' ∧ Sound r' s' := by
  cases h with
  | begin => exact ⟨hs, trivial⟩
  | select =>
    exact ⟨hs, fun x hx => absurd hx List.not_mem_nil, List.nodup_nil,
      fun x hx => absurd hx List.not_mem_nil⟩
  | selected => exact ⟨hs, hr⟩
  | skipped => exact ⟨hs, hr⟩
  | @locked now limit c f candidates due s hf hdue hfree =>
    refine ⟨hs.congr rfl rfl, fun x hx => ?_, ?_, fun x hx => ?_⟩
    · rcases List.mem_append.mp hx with hx | hx
      · exact List.mem_cons_of_mem _ (HasRead.locked hr x hx)
      · rw [List.mem_singleton.mp hx]
        exact List.mem_cons_self
    · rw [List.map_append]
      refine List.nodup_append.mpr ⟨HasRead.nodup hr, List.nodup_singleton _, ?_⟩
      rintro i hi j hj rfl
      rw [List.map_singleton, List.mem_singleton] at hj
      obtain ⟨x, hx, hxi⟩ := List.mem_map.mp hi
      have hsame : x.feed = f.id := hxi.trans hj
      exact hfree (hsame ▸ HasRead.locked hr x hx)
    · rcases List.mem_append.mp hx with hx | hx
      · exact HasRead.rows hr x hx
      · exact ⟨f, hf, (List.mem_singleton.mp hx).symm, hdue⟩
  | updated => exact ⟨hs, hr, rfl⟩
  | @committed now due rows s =>
    obtain ⟨hread, rfl⟩ := hr
    refine ⟨hs.commit hread, hread.nodup, fun x hx => ?_, fun x hx y hy => ?_⟩
    · obtain ⟨f, hf, rfl, -⟩ := hread.rows x hx
      have hid : f.id ∈ due.map FetchTask.feed := List.mem_map.mpr ⟨_, hx, rfl⟩
      exact ⟨f, moveForward now f,
        List.mem_append_left _ ((mem_moves hs.ids).mpr ⟨f, hf, hid, rfl⟩), rfl⟩
    · have hold := (List.mem_append.mp hy).resolve_left not_published_moves
      exact hread.not_movedFor hs hx (hs.movedFor hold)
  | finished => exact ⟨hs, trivial⟩
  | @published now x due s =>
    have howes : Owes now (x :: due) s := hr
    have hnodup := List.nodup_cons.mp howes.nodup
    refine ⟨hs.publish howes, hnodup.2, fun y hy => ?_, fun y hy y' hy' => ?_⟩
    · exact (howes.moved y (List.mem_cons_of_mem _ hy)).mono fun e he => List.mem_cons_of_mem _ he
    · rcases List.mem_cons.mp hy' with heq | hold
      · cases heq
        intro hsame
        exact hnodup.1 (List.mem_map.mpr ⟨y, hy, hsame.symm⟩)
      · exact howes.unpublished y (List.mem_cons_of_mem _ hy) y' hold
  | died => exact ⟨hs.congr rfl rfl, trivial⟩

/-- The step of a run, for the pairs. -/
theorem Did.apart {r r' q : Run} {s' : Store} (h : Did r s r' s') (hs : Consistent s)
    (hr : Sound r s) (hq : Sound q s) (hapart : Apart r q) : Apart r' q := by
  have hnothing : ∀ k ∈ ([] : List (Time × ℕ)), k ∉ q.owed := fun k hk => absurd hk List.not_mem_nil
  cases h with
  | begin => exact hapart
  | select => exact hapart
  | selected => exact hapart
  | skipped => exact hapart
  | @locked now limit c f candidates due s hf hdue hfree =>
    refine ⟨fun i hi => ?_, hnothing⟩
    rw [Run.held, List.map_append] at hi
    rcases List.mem_append.mp hi with hi | hi
    · exact hapart.1 i hi
    · have hsame : i = f.id := List.mem_singleton.mp hi
      intro hheld
      exact hfree (hsame ▸ hq.locked i hheld)
  | updated => exact hapart
  | @committed now due rows s =>
    refine ⟨fun i hi => absurd hi List.not_mem_nil, fun k hk hkq => ?_⟩
    obtain ⟨x, hx, rfl⟩ := List.mem_map.mp hk
    cases q with
    | publishing now' due' =>
      obtain ⟨y, hy, heq⟩ := List.mem_map.mp hkq
      obtain ⟨rfl, hfeed⟩ := Prod.mk.inj heq
      exact hr.1.not_movedFor hs hx (Owes.moved hq y hy) hfeed
    | _ => exact List.not_mem_nil hkq
  | finished => exact hapart
  | published =>
    exact ⟨fun i hi => absurd hi List.not_mem_nil,
      fun k hk => hapart.2 k (List.mem_cons_of_mem _ hk)⟩
  | died => exact ⟨fun i hi => absurd hi List.not_mem_nil, hnothing⟩

/-! ### What others write -/

/-- Others keep `next_fetch_at`, and intervals are positive. -/
def Harmless (f : Feed) (s : Store) : Prop :=
  0 < f.intervalSeconds ∧ ∀ row ∈ s.feeds, row.id = f.id → row.nextFetchAt = f.nextFetchAt

theorem edit_eq_some {f : Feed} {s' : Store} (h : edit f s = some s') :
    f.id ∉ s.locked ∧ s' = { s with feeds := put Feed.id f s.feeds } := by
  rw [edit] at h
  split at h
  · cases h
  · rename_i hfree
    cases h
    exact ⟨hfree, rfl⟩

theorem Consistent.edit (hs : Consistent s) {f : Feed} (hf : Harmless f s) :
    Consistent { s with feeds := put Feed.id f s.feeds } := by
  refine ⟨nodup_put hs.ids f, fun g hg => ?_, fun now before after he => ?_, hs.moved, hs.spaced,
    hs.backed, hs.once⟩
  · rcases mem_put hg with rfl | ⟨hg, -⟩
    · exact hf.1
    · exact hs.positive g hg
  · obtain ⟨g, hg, hid, hahead⟩ := hs.ahead now before after he
    by_cases hsame : g.id = f.id
    · exact ⟨f, mem_put_self f s.feeds, hsame.symm.trans hid, hf.2 g hg hsame ▸ hahead⟩
    · exact ⟨g, mem_put_of_ne hg hsame, hid, hahead⟩

theorem keeps_edit {f : Feed} {q : Run} (hfree : f.id ∉ s.locked) (hq : Sound q s) :
    Keeps q s { s with feeds := put Feed.id f s.feeds } where
  locked _ _ hi := hi
  feeds := by
    refine filter_put fun g hg => decide_eq_false ?_
    rw [hg]
    exact fun hheld => hfree (hq.locked _ hheld)
  log _ he := he
  unpublished _ _ hx := .inl hx

/-! ### Runs -/

section

variable {ι : Type*} {c₀ c : Schedulers ι}

/-- No run has begun, and the rows have their keys and positive intervals. -/
structure Initial (c : Schedulers ι) : Prop where
  idle : ∀ p, c.loc p = .idle
  log : c.shared.log = []
  ids : (c.shared.feeds.map Feed.id).Nodup
  positive : ∀ f ∈ c.shared.feeds, 0 < f.intervalSeconds

/-- The runs are not restricted; others keep `next_fetch_at`, and intervals are
positive. -/
def Admissible (c : Schedulers ι) : Move ι Action Feed → Prop
  | .proc _ _ => True
  | .env f => Harmless f c.shared

theorem Initial.meets (h : Initial c) : Config.Meets Consistent Sound Apart c where
  shared := by
    refine ⟨h.ids, h.positive, ?_, ?_, ?_, ?_, ?_⟩
    · intro now before after he
      rw [h.log] at he
      exact absurd he List.not_mem_nil
    · intro now before after he
      rw [h.log] at he
      exact absurd he List.not_mem_nil
    · intro now before after now' before' after' he
      rw [h.log] at he
      exact absurd he List.not_mem_nil
    · rw [h.log]
      exact trivial
    · rw [h.log]
      exact .nil
  each p := by
    rw [h.idle p]
    exact trivial
  pair p q _ := by
    rw [h.idle p]
    exact ⟨fun i hi => absurd hi List.not_mem_nil, fun k hk => absurd hk List.not_mem_nil⟩

variable [DecidableEq ι]

/-- Nothing interferes. -/
theorem meets_of_reach (h0 : Initial c₀) (h : Reach next Admissible c₀ c) :
    Config.Meets Consistent Sound Apart c := by
  refine Config.invariant_of_assertions (fun _ _ => Apart.symm) ?_ ?_ ?_ ?_ h0.meets h
  · intro c p a r s hc _ hstep
    exact (step_did hstep).own hc.shared (hc.each p)
  · intro c p a r s q hc _ hstep hq
    exact (hc.each q).keeps
      ((step_did hstep).keeps hc.shared (hc.each p) (hc.pair p q hq.symm))
  · intro c p a r s q hc _ hstep hq
    exact (step_did hstep).apart hc.shared (hc.each p) (hc.each q) (hc.pair p q hq.symm)
  · intro c f s hc hadm hedit
    obtain ⟨hfree, rfl⟩ := edit_eq_some hedit
    exact ⟨hc.shared.edit hadm, fun p => (hc.each p).keeps (keeps_edit hfree (hc.each p))⟩

/-- **Each due round is queued once.**  Two tasks of one feed come from runs whose times
differ by the interval that the earlier of them read; a task is queued only behind the
commit of its run that moved `next_fetch_at` forward, and the row that this commit
replaced was due: active, not deleted, not paused, and with a `next_fetch_at` that the
time of the run had reached. -/
theorem rounds_are_queued_once (h0 : Initial c₀) (h : Reach next Admissible c₀ c) :
    (c.shared.log.Pairwise fun e e' => ∀ now x now' x', e = .published now x →
      e' = .published now' x' → x.feed = x'.feed →
        now + x.expires * second ≤ now' ∨ now' + x'.expires * second ≤ now) ∧
    (∀ later now x earlier, c.shared.log = later ++ .published now x :: earlier →
      ∃ before, .moved now before (moveForward now before) ∈ earlier ∧ taskOf before = x ∧
        before.isDue now = true ∧
          before.nextFetchAt < (moveForward now before).nextFetchAt) ∧
    ∀ now x, .published now x ∈ c.shared.log →
      ∃ f ∈ c.shared.feeds, f.id = x.feed ∧ now + x.expires * second ≤ f.nextFetchAt := by
  have hs := (meets_of_reach h0 h).shared
  refine ⟨?_, ?_, ?_⟩
  · refine hs.once.imp_of_mem ?_
    intro e e' he he' honce now x now' x' heq heq' hfeed
    subst heq heq'
    obtain ⟨before, after, hmoved, rfl⟩ := hs.movedFor he
    obtain ⟨before', after', hmoved', rfl⟩ := hs.movedFor he'
    exact hs.spaced _ _ _ _ _ _ hmoved hmoved' hfeed (honce now _ now' _ rfl rfl hfeed)
  · intro later now x earlier hlog
    have hbacked := hs.backed
    rw [hlog] at hbacked
    obtain ⟨before, after, hmoved, rfl⟩ := hbacked.movedFor
    have hmem : .moved now before after ∈ c.shared.log := by
      rw [hlog]
      exact List.mem_append_right _ (List.mem_cons_of_mem _ hmoved)
    obtain ⟨hdue, hpos, rfl⟩ := hs.moved now before after hmem
    exact ⟨before, hmoved, rfl, hdue,
      Int.lt_of_le_of_lt (nextFetchAt_le hdue) (lt_add_interval hpos now)⟩
  · intro now x hx
    obtain ⟨before, after, hmoved, rfl⟩ := hs.movedFor hx
    exact hs.ahead now before after hmoved

end

/-! ### Two rounds -/

/-- A feed that is due every minute. -/
def everyMinute : Feed where
  id := 1
  url := "https://a.example/feed".toList
  siteUrl := []
  title := []
  language := .english
  etag := none
  lastModified := none
  intervalSeconds := 60
  lastFetchedAt := none
  nextFetchAt := 0
  lastStatus := none
  consecutiveErrors := 0
  disabledUntil := none
  isActive := true
  isDeleted := false

def twoRuns : Schedulers Bool := ⟨⟨[everyMinute], [], []⟩, fun _ => .idle⟩

/-- The second run takes its snapshot before the first one commits, and queues its task
first. -/
def overlapping : List (Move Bool Action Feed) :=
  [.proc false (.begin (100 * second) 200), .proc true (.begin (160 * second) 200),
    .proc false (.select [everyMinute]), .proc true (.select [everyMinute]),
    .proc false .candidate, .proc false .candidate, .proc false .update, .proc false .commit,
    .proc true .candidate, .proc true .candidate, .proc true .update, .proc true .commit,
    .proc true .publish, .proc false .publish]

theorem twoRuns_initial : Initial twoRuns where
  idle _ := rfl
  log := rfl
  ids := by decide
  positive := by decide

theorem rounds_are_queued_once_overlap :
    ∃ c, Reach next Admissible twoRuns c ∧
      c.shared.log.head? = some (.published (100 * second) ⟨1, 60⟩) ∧
        ∃ f ∈ c.shared.feeds, f.id = 1 ∧ 160 * second ≤ f.nextFetchAt := by
  have hrun : (exec next overlapping twoRuns).map (fun c => c.shared.log.head?) =
      some (some (.published (100 * second) ⟨1, 60⟩)) := by decide
  have hmoves : ∀ m ∈ overlapping, ∀ c, Admissible c m := by
    intro m hm c
    cases m with
    | proc p a => exact trivial
    | env f => simp [overlapping] at hm
  obtain ⟨c, hreach, hhead⟩ :=
    Reach.exists_of_exec Admissible hrun (along_of_forall hmoves twoRuns)
  obtain ⟨-, -, hahead⟩ := rounds_are_queued_once twoRuns_initial hreach
  exact ⟨c, hreach, hhead, hahead _ _ (List.mem_of_mem_head? hhead)⟩

end Scheduler
