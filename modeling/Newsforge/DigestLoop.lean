/-
One run of the digest, while owners delete subscriptions.

* `SparesUnsaved` — no subscription is deleted that the run has loaded and not
  saved, unless it is the last one;
* `LoopInv` — what the run has done for each subscription it loaded;
* `Phase.left` — how much it still has to do.

Main results: `digest_serves_all` (such a run serves all that are left)
and `deletion_stops_the_digest` (one deletion keeps the others from being
served).
-/
import Newsforge.Digest

open PyText Tables Runs Windows

namespace Digest

open ArticleTable SafeHttp Subscriptions

/-! ### What a run does for a subscription -/

/-- The articles that were queued for a subscription. -/
def queuedFor (id : ℕ) (w : World) : List ℕ :=
  (w.queued.filter fun e => e.1 == id).map Prod.snd

/-- One run, and deletions. -/
def OneRun (_ : State) : Move → Prop
  | .run | .delete _ => True
  | _ => False

/-- One run, and deletions of subscriptions it does not hold, or has to save
last. -/
def SparesUnsaved (c : State) : Move → Prop
  | .run => True
  | .delete id => ∀ s ∈ c.phase.unsaved.dropLast, s.id ≠ id
  | _ => False

/-- A run that has taken `now`, on a table that `save` has written. -/
structure Begun (t : HostTables) (now : Time) (c : State) : Prop where
  phase : c.phase = .taken now
  queued : c.queued = []
  unique : (c.subs.map Subscription.id).Nodup
  keys : ∀ r ∈ c.subs, r.HasKey t

variable {t : HostTables} {pg : Postgres} {cat : Catalog} {now : Time} {c₀ c : State}
  {w w' : World}

/-- The run `now` queued what it matches for `r₀`, and saved the row. -/
structure Served (pg : Postgres) (cat : Catalog) (now : Time) (c₀ : State) (w : World)
    (r₀ : Subscription) : Prop where
  queued : queuedFor r₀.id w = matchSql pg cat r₀ (window r₀ now) c₀.articles
  saved : ∀ r ∈ w.subs, r.id = r₀.id → r.lastNotifiedAt = some now

/-- The rows a run holds are still there, but perhaps the last. -/
structure Held (c₀ : State) (w : World) (subs : List Subscription) : Prop where
  unique : (subs.map Subscription.id).Nodup
  loaded : ∀ s ∈ subs, s ∈ c₀.subs
  stored : ∀ s ∈ subs.dropLast, ∃ r ∈ w.subs, r.id = s.id

/-- Every daily subscription that is left is served, or is one of these. -/
def ServedBut (pg : Postgres) (cat : Catalog) (now : Time) (c₀ : State) (w : World)
    (subs : List Subscription) : Prop :=
  ∀ r₀ ∈ c₀.subs, isDaily r₀ = true → (∃ r ∈ w.subs, r.id = r₀.id) →
    r₀ ∈ subs ∨ Served pg cat now c₀ w r₀

/-- How far a run has come. -/
def LoopPhase (pg : Postgres) (cat : Catalog) (now : Time) (c₀ : State) (w : World) :
    Phase → Prop
  | .taken n => n = now ∧ w.queued = [] ∧ w.subs.Sublist c₀.subs
  | .loop n todo _ => n = now ∧ Held c₀ w todo ∧ (∀ s ∈ todo, queuedFor s.id w = []) ∧
      ServedBut pg cat now c₀ w todo
  | .queueing n sub ids todo _ => n = now ∧ Held c₀ w (sub :: todo) ∧
      (∀ s ∈ todo, queuedFor s.id w = []) ∧
      queuedFor sub.id w ++ ids = matchSql pg cat sub (window sub now) c₀.articles ∧
      ServedBut pg cat now c₀ w (sub :: todo)
  | .returned _ | .failed => ServedBut pg cat now c₀ w []
  | .idle => False

/-- The invariant of the loop. -/
structure LoopInv (pg : Postgres) (cat : Catalog) (now : Time) (c₀ c : State) : Prop where
  articles : c.articles = c₀.articles
  phase : LoopPhase pg cat now c₀ c.toWorld c.phase

theorem Begun.loopInv (h0 : Begun t now c₀) : LoopInv pg cat now c₀ c₀ := by
  refine ⟨rfl, ?_⟩
  rw [h0.phase]
  exact ⟨rfl, h0.queued, List.Sublist.refl _⟩

/-- Ids are unique in the table the run began with. -/
theorem Begun.eq_of_id (h0 : Begun t now c₀) {r s : Subscription} (hr : r ∈ c₀.subs)
    (hs : s ∈ c₀.subs) (hid : r.id = s.id) : r = s :=
  List.inj_on_of_nodup_map h0.unique hr hs hid

/-! ### Deletions -/

theorem Held.delete {id : ℕ} {subs : List Subscription} (h : Held c₀ w subs)
    (hspare : ∀ s ∈ subs.dropLast, s.id ≠ id)
    (hsubs : w'.subs = w.subs.filter fun r => r.id != id) :
    Held c₀ w' subs := by
  refine ⟨h.unique, h.loaded, fun s hs => ?_⟩
  obtain ⟨r, hr, hid⟩ := h.stored s hs
  refine ⟨r, ?_, hid⟩
  rw [hsubs]
  exact List.mem_filter.mpr ⟨hr, bne_iff_ne.mpr (hid ▸ hspare s hs)⟩

/-- What was done for the rows that are left stays done. -/
theorem ServedBut.mono {subs : List Subscription} (h : ServedBut pg cat now c₀ w subs)
    (hsubs : ∀ r ∈ w'.subs, r ∈ w.subs) (hqueued : w'.queued = w.queued) :
    ServedBut pg cat now c₀ w' subs := by
  intro r₀ hr₀ hdaily hleft
  obtain ⟨r, hr, hid⟩ := hleft
  rcases h r₀ hr₀ hdaily ⟨r, hsubs r hr, hid⟩ with hmem | hserved
  · exact .inl hmem
  · refine .inr ⟨?_, fun r hr => hserved.saved r (hsubs r hr)⟩
    rw [queuedFor, hqueued]
    exact hserved.queued

theorem LoopInv.delete {id : ℕ} (h : LoopInv pg cat now c₀ c)
    (hspare : ∀ s ∈ c.phase.unsaved.dropLast, s.id ≠ id) :
    LoopInv pg cat now c₀ { c with subs := c.subs.filter fun r => r.id != id } := by
  obtain ⟨w, l⟩ := c
  have hsubs : ∀ r ∈ w.subs.filter (fun r => r.id != id), r ∈ w.subs :=
    fun r hr => (List.mem_filter.mp hr).1
  refine ⟨h.articles, ?_⟩
  have hp := h.phase
  cases l with
  | taken n => exact ⟨hp.1, hp.2.1, List.filter_sublist.trans hp.2.2⟩
  | loop n todo sent =>
    obtain ⟨hn, hheld, huntouched, hbut⟩ := hp
    exact ⟨hn, hheld.delete hspare rfl, huntouched, hbut.mono hsubs rfl⟩
  | queueing n sub ids todo sent =>
    obtain ⟨hn, hheld, huntouched, hids, hbut⟩ := hp
    exact ⟨hn, hheld.delete hspare rfl, huntouched, hids, hbut.mono hsubs rfl⟩
  | returned | failed => exact ServedBut.mono hp hsubs rfl
  | idle => exact hp

/-! ### Statements of the run -/

theorem queuedFor_append_self (id a : ℕ) (w : World) :
    queuedFor id { w with queued := w.queued ++ [(id, a)] } = queuedFor id w ++ [a] := by
  simp [queuedFor]

theorem queuedFor_append_of_ne {id id' : ℕ} (hne : id ≠ id') (a : ℕ) (w : World) :
    queuedFor id { w with queued := w.queued ++ [(id', a)] } = queuedFor id w := by
  simp [queuedFor, hne.symm]

theorem mem_dropLast_cons {α : Type*} {a x : α} {l : List α} (h : x ∈ l.dropLast) :
    x ∈ (a :: l).dropLast := by
  rw [List.dropLast_cons_of_ne_nil fun hnil => by rw [hnil] at h; cases h]
  exact List.mem_cons_of_mem _ h

theorem Held.tail {sub : Subscription} {subs : List Subscription}
    (h : Held c₀ w (sub :: subs)) : Held c₀ w subs :=
  ⟨(List.nodup_cons.mp h.unique).2, fun s hs => h.loaded s (List.mem_cons_of_mem _ hs),
    fun s hs => h.stored s (mem_dropLast_cons hs)⟩

/-- The first row a run holds is not among the others. -/
theorem Held.id_ne {sub : Subscription} {subs : List Subscription}
    (h : Held c₀ w (sub :: subs)) {s : Subscription} (hs : s ∈ subs) : s.id ≠ sub.id := by
  intro hid
  exact (List.nodup_cons.mp h.unique).1 (hid ▸ List.mem_map_of_mem hs)

/-- A loaded row that is being served is the one with its id. -/
theorem Begun.mem_cons_of_id (h0 : Begun t now c₀) {sub r₀ : Subscription}
    {subs : List Subscription} (hheld : Held c₀ w (sub :: subs)) (hr₀ : r₀ ∈ c₀.subs)
    (hid : r₀.id = sub.id) : r₀ ∈ sub :: subs := by
  rw [h0.eq_of_id hr₀ (hheld.loaded sub List.mem_cons_self) hid]
  exact List.mem_cons_self

/-- Once the row that is served is saved, only those behind it are left to serve. -/
theorem ServedBut.noted (h0 : Begun t now c₀) {sub : Subscription} {todo : List Subscription}
    {key : Text} (hbut : ServedBut pg cat now c₀ w (sub :: todo)) (hsub : sub ∈ c₀.subs)
    (hqueued : queuedFor sub.id w = matchSql pg cat sub (window sub now) c₀.articles)
    (hsubs : w'.subs = Digest.noted sub.id now key w.subs) (hkeep : w'.queued = w.queued) :
    ServedBut pg cat now c₀ w' todo := by
  have hfor : ∀ id, queuedFor id w' = queuedFor id w := by
    intro id
    rw [queuedFor, hkeep]
    rfl
  intro r₀ hr₀ hdaily hleft
  rw [hsubs] at hleft
  by_cases hid : r₀.id = sub.id
  · -- the row that was saved
    have heq : r₀ = sub := h0.eq_of_id hr₀ hsub hid
    subst heq
    refine .inr ⟨(hfor r₀.id).trans hqueued, fun r hr hrid => ?_⟩
    rw [hsubs] at hr
    rcases mem_noted hr with ⟨-, hlast, -⟩ | ⟨hne, -⟩
    · exact hlast
    · exact absurd hrid hne
  · have hleft₀ : ∃ r ∈ w.subs, r.id = r₀.id := by
      obtain ⟨r, hr, hrid⟩ := hleft
      rcases mem_noted hr with ⟨hsame, -⟩ | ⟨-, hr⟩
      · exact absurd (hrid.symm.trans hsame) hid
      · exact ⟨r, hr, hrid⟩
    rcases hbut r₀ hr₀ hdaily hleft₀ with hmem | hserved
    · rcases List.mem_cons.mp hmem with rfl | hmem
      · exact absurd rfl hid
      · exact .inl hmem
    · refine .inr ⟨(hfor r₀.id).trans hserved.queued, fun r hr hrid => ?_⟩
      rw [hsubs] at hr
      rcases mem_noted hr with ⟨hsame, -⟩ | ⟨-, hr⟩
      · exact absurd (hrid.symm.trans hsame) hid
      · exact hserved.saved r hr hrid

/-- **One statement of the run.** -/
theorem LoopInv.effect (h0 : Begun t now c₀) (h : LoopInv pg cat now c₀ c) {l' : Phase}
    (he : Effect t pg cat c.phase c.toWorld l' w') :
    LoopInv pg cat now c₀ ⟨w', l'⟩ := by
  obtain ⟨w, l⟩ := c
  have harticles := h.articles
  have hp := h.phase
  change w.articles = c₀.articles at harticles
  change LoopPhase pg cat now c₀ w l at hp
  cases he with
  | loaded n =>
    obtain ⟨hn, hqueued, hsub⟩ := hp
    have hdaily : (w.subs.filter isDaily).Sublist c₀.subs := List.filter_sublist.trans hsub
    refine ⟨harticles, hn, ⟨?_, fun s hs => hdaily.subset hs, ?_⟩, fun s _ => ?_, ?_⟩
    · exact h0.unique.sublist (hdaily.map Subscription.id)
    · exact fun s hs => ⟨s, (List.mem_filter.mp (List.mem_of_mem_dropLast hs)).1, rfl⟩
    · show (w.queued.filter _).map _ = []
      rw [hqueued]
      rfl
    · intro r₀ hr₀ hdaily hleft
      obtain ⟨r, hr, hid⟩ := hleft
      have heq : r = r₀ := h0.eq_of_id (hsub.subset hr) hr₀ hid
      exact .inl (List.mem_filter.mpr ⟨heq ▸ hr, hdaily⟩)
  | returned n sent =>
    obtain ⟨-, -, -, hbut⟩ := hp
    exact ⟨harticles, hbut.mono (fun r hr => hr) rfl⟩
  | matched n sub todo sent =>
    obtain ⟨rfl, hheld, huntouched, hbut⟩ := hp
    refine ⟨harticles, rfl, hheld, fun s hs => huntouched s (List.mem_cons_of_mem _ hs), ?_, hbut⟩
    show queuedFor sub.id w ++ _ = _
    have hnone : queuedFor sub.id w = [] := huntouched sub List.mem_cons_self
    rw [hnone, List.nil_append, harticles]
  | queued n sub id ids todo sent =>
    obtain ⟨rfl, hheld, huntouched, hids, hbut⟩ := hp
    refine ⟨harticles, rfl, ⟨hheld.unique, hheld.loaded, hheld.stored⟩, fun s hs => ?_, ?_, ?_⟩
    · show queuedFor s.id { w with queued := w.queued ++ [(sub.id, id)] } = []
      rw [queuedFor_append_of_ne (hheld.id_ne hs)]
      exact huntouched s hs
    · show queuedFor sub.id { w with queued := w.queued ++ [(sub.id, id)] } ++ ids = _
      rw [queuedFor_append_self, List.append_assoc]
      exact hids
    · intro r₀ hr₀ hdaily hleft
      -- the one being served is still to be saved; the others see no change
      by_cases hid : r₀.id = sub.id
      · exact .inl (h0.mem_cons_of_id hheld hr₀ hid)
      · refine (hbut r₀ hr₀ hdaily hleft).imp_right fun hserved => ⟨?_, hserved.saved⟩
        exact (queuedFor_append_of_ne hid _ w).trans hserved.queued
  | saved n sub todo sent key hkey hfound =>
    obtain ⟨rfl, hheld, huntouched, hids, hbut⟩ := hp
    refine ⟨harticles, rfl, ⟨hheld.tail.unique, hheld.tail.loaded, fun s hs => ?_⟩, huntouched, ?_⟩
    · obtain ⟨r, hr, hid⟩ := hheld.tail.stored s hs
      exact ⟨r, mem_noted_of_ne hr (hid ▸ hheld.id_ne (List.mem_of_mem_dropLast hs)), hid⟩
    · exact hbut.noted h0 (hheld.loaded sub List.mem_cons_self)
        ((List.append_nil _).symm.trans hids) rfl rfl
  | failed n sub todo sent hfail =>
    obtain ⟨-, hheld, -, -, hbut⟩ := hp
    obtain ⟨key, hkey⟩ := h0.keys sub (hheld.loaded sub List.mem_cons_self)
    have hgone := hfail key hkey
    refine ⟨harticles, fun r₀ hr₀ hdaily hleft => .inr ?_⟩
    -- only the last row may be gone, and then nothing is left to serve
    cases todo with
    | nil =>
      rcases hbut r₀ hr₀ hdaily hleft with hmem | hserved
      · -- the row that could not be saved is not left
        obtain ⟨r, hr, hid⟩ := hleft
        rw [List.mem_singleton] at hmem
        exact absurd (hmem ▸ hid) (hgone r hr)
      · exact hserved
    | cons sub' todo =>
      obtain ⟨r, hr, hid⟩ := hheld.stored sub List.mem_cons_self
      exact absurd hid (hgone r hr)

theorem loopInv_of_reach (h0 : Begun t now c₀) (h : Reach (next t pg cat) SparesUnsaved c₀ c) :
    LoopInv pg cat now c₀ c := by
  refine h.invariant h0.loopInv fun c m c' hc hok hnext => ?_
  cases m with
  | run =>
    obtain ⟨r, hr, rfl⟩ := Option.map_eq_some_iff.mp hnext
    exact hc.effect h0 (advance_effect hr)
  | delete id =>
    cases hnext
    exact hc.delete hok
  | tick | insert | commit | begin => exact hok.elim

/-! ### A run ends -/

/-- A bound on the statements a run has left. -/
def Phase.left (w : World) : Phase → ℕ
  | .taken _ => (w.subs.filter isDaily).length * (maxArticlesPerDigest + 2) + 2
  | .loop _ todo _ => todo.length * (maxArticlesPerDigest + 2) + 1
  | .queueing _ _ ids todo _ => ids.length + 2 + todo.length * (maxArticlesPerDigest + 2)
  | .idle | .returned _ | .failed => 0

theorem Effect.left_lt {l l' : Phase} (h : Effect t pg cat l w l' w') :
    l'.left w' < l.left w := by
  cases h with
  | loaded n => exact Nat.lt_succ_self _
  | returned n sent => exact Nat.lt_succ_of_le (Nat.zero_le _)
  | matched n sub todo sent =>
    have hle := length_matchSql_le pg cat sub (window sub n) w.articles
    show (matchSql _ _ _ _ _).length + 2 + todo.length * _ < (todo.length + 1) * _ + 1
    rw [Nat.succ_mul]
    omega
  | queued n sub id ids todo sent =>
    show ids.length + 2 + _ < ids.length + 1 + 2 + _
    omega
  | saved n sub todo sent key hkey hfound =>
    show todo.length * _ + 1 < 0 + 2 + todo.length * _
    omega
  | failed n sub todo sent hfail => exact Nat.lt_of_lt_of_le (Nat.succ_pos _) (Nat.le_add_right _ _)

/-- A run that is going on has a next statement. -/
theorem advance_of_not_resting {l : Phase} (h : l.resting = false) (w : World) :
    ∃ r, advance t pg cat l w = some r := by
  cases l with
  | taken n => exact ⟨_, rfl⟩
  | loop n todo sent => cases todo <;> exact ⟨_, rfl⟩
  | queueing n sub ids todo sent =>
    cases ids with
    | nil =>
      rw [advance]
      cases savePartial t (fun r => { r with lastNotifiedAt := some n }) sub w.subs <;>
        exact ⟨_, rfl⟩
    | cons id ids => exact ⟨_, rfl⟩
  | idle | returned sent | failed => cases h

/-- Left alone, a run ends. -/
theorem run_ends (c : State) : ∃ n c',
    exec (next t pg cat) (List.replicate n .run) c = some c' ∧ c'.phase.resting = true := by
  induction hn : c.phase.left c.toWorld using Nat.strong_induction_on generalizing c with
  | _ k ih =>
    cases hrest : c.phase.resting with
    | true => exact ⟨0, c, rfl, hrest⟩
    | false =>
      obtain ⟨r, hr⟩ : ∃ r, advance t pg cat c.phase c.toWorld = some r :=
        advance_of_not_resting hrest c.toWorld
      obtain ⟨n, c', hexec, hend⟩ := ih _ (hn ▸ (advance_effect hr).left_lt) ⟨r.2, r.1⟩ rfl
      refine ⟨n + 1, c', ?_, hend⟩
      rw [List.replicate_succ, exec, next, hr]
      exact hexec

/-- **One subscription does not stop the digest, as long as none is deleted that
the run holds and does not save last.**  Left alone in any state, the run ends;
and when it has ended, each daily subscription it began with that is not deleted
got exactly the articles its query found, and the run's `now` as
`last_notified_at`. -/
theorem digest_serves_all (h0 : Begun t now c₀)
    (h : Reach (next t pg cat) SparesUnsaved c₀ c) :
    (∃ n c', exec (next t pg cat) (List.replicate n .run) c = some c' ∧
      c'.phase.resting = true) ∧
    (c.phase.resting = true → ∀ r₀ ∈ c₀.subs, isDaily r₀ = true →
      ∀ r ∈ c.subs, r.id = r₀.id →
        queuedFor r₀.id c.toWorld = matchSql pg cat r₀ (window r₀ now) c₀.articles ∧
          r.lastNotifiedAt = some now) := by
  refine ⟨run_ends c, fun hrest r₀ hr₀ hdaily r hr hid => ?_⟩
  have hbut : ServedBut pg cat now c₀ c.toWorld [] := by
    have hp := (loopInv_of_reach h0 h).phase
    cases hphase : c.phase with
    | returned | failed =>
      rw [hphase] at hp
      exact hp
    | idle =>
      rw [hphase] at hp
      exact hp.elim
    | taken | loop | queueing =>
      rw [hphase] at hrest
      cases hrest
  rcases hbut r₀ hr₀ hdaily ⟨r, hr, hid⟩ with hmem | hserved
  · cases hmem
  · exact ⟨hserved.queued, hserved.saved r hr hid⟩

/-! ### A run that is spared, and one that is not -/

instance (c : State) : (m : Move) → Decidable (SparesUnsaved c m)
  | .run => isTrue trivial
  | .delete id => inferInstanceAs (Decidable (∀ s ∈ c.phase.unsaved.dropLast, s.id ≠ id))
  | .tick _ | .insert _ | .commit _ | .begin => isFalse id

instance (c : State) : (m : Move) → Decidable (OneRun c m)
  | .run | .delete _ => isTrue trivial
  | .tick _ | .insert _ | .commit _ | .begin => isFalse id

/-- One article, and two daily subscriptions of different owners. -/
def twoSubscribers : State where
  clock := 10
  articles := [newArticle 1 (storyWith "a".toList "h".toList) 5 7]
  pending := []
  nextId := 8
  subs := [dailyRow 1 1 (some 0), dailyRow 2 2 (some 0)]
  queued := []
  windows := []
  ended := []
  phase := .taken 10

theorem twoSubscribers_begun : Begun asciiTables 10 twoSubscribers := by
  refine ⟨rfl, rfl, by decide, fun r hr => ?_⟩
  rcases List.mem_cons.mp hr with rfl | hr
  · exact ⟨_, rfl⟩
  · rw [List.mem_singleton.mp hr]
    exact ⟨_, rfl⟩

/-- The first owner deletes the subscription when it is saved. -/
theorem digest_serves_all_deleted :
    ∃ c, Reach (next asciiTables everything oneFeed) SparesUnsaved twoSubscribers c ∧
      c.phase = .returned 2 ∧ c.subs.map Subscription.id = [2] ∧
      ∀ r ∈ c.subs, r.id = 2 → queuedFor 2 c.toWorld = [7] ∧ r.lastNotifiedAt = some 10 := by
  have hrun : ((exec (next asciiTables everything oneFeed)
      [.run, .run, .run, .run, .delete 1, .run, .run, .run, .run] twoSubscribers).map
        fun c => (c.phase, c.subs.map Subscription.id)) = some (.returned 2, [2]) := by
    decide
  obtain ⟨c, hreach, hend⟩ := Reach.exists_of_exec SparesUnsaved hrun (by decide)
  have hret : c.phase = .returned 2 := congrArg Prod.fst hend
  have hserved := (digest_serves_all twoSubscribers_begun hreach).2 (by rw [hret]; rfl)
    (dailyRow 2 2 (some 0)) (by decide) (by decide)
  refine ⟨c, hreach, hret, congrArg Prod.snd hend, fun r hr hid => ?_⟩
  obtain ⟨hqueued, hlast⟩ := hserved r hr hid
  exact ⟨hqueued.trans (by decide), hlast⟩

/-- **A deletion stops the digest.**  The first subscription is deleted before
it is saved; the save raises, the task ends, and the other subscription gets
nothing. -/
theorem deletion_stops_the_digest :
    ∃ c, Reach (next asciiTables everything oneFeed) OneRun twoSubscribers c ∧
      Begun asciiTables 10 twoSubscribers ∧ c.phase = .failed ∧
      ∃ r ∈ c.subs, r ∈ twoSubscribers.subs ∧ isDaily r = true ∧
        queuedFor r.id c.toWorld ≠
          matchSql everything oneFeed r (window r 10) twoSubscribers.articles ∧
        r.lastNotifiedAt ≠ some 10 := by
  have hrun : ((exec (next asciiTables everything oneFeed)
      [.run, .run, .run, .delete 1, .run] twoSubscribers).map
        fun c => (c.phase, c.subs, queuedFor 2 c.toWorld)) =
      some (.failed, [dailyRow 2 2 (some 0)], []) := by
    decide
  obtain ⟨c, hreach, hend⟩ := Reach.exists_of_exec OneRun hrun (by decide)
  have hsubs : c.subs = [dailyRow 2 2 (some 0)] := congrArg (fun x => x.2.1) hend
  have hqueued : queuedFor 2 c.toWorld = [] := congrArg (fun x => x.2.2) hend
  refine ⟨c, hreach, twoSubscribers_begun, congrArg Prod.fst hend, dailyRow 2 2 (some 0), ?_,
    by decide, by decide, ?_, by decide⟩
  · rw [hsubs]
    exact List.mem_singleton_self _
  · show queuedFor 2 c.toWorld ≠ _
    rw [hqueued]
    decide

end Digest
