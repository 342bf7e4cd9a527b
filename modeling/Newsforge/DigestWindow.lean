/-
The windows of the digest for one subscription.

* `windowsOf`, `Phase.current`, `opened` — the windows whose query has run, the
  newest first;
* `Quiet` — nobody else writes the subscription, and no query overflows;
* `NoLateCommit` — no article is committed into a window whose query has run;
* `WindowInv` — the windows follow each other, and each article of one of them
  is queued once, or is about to be.

Main results: `queued_by_exactly_one_run` (without late commits) and
`late_commit_is_lost` (an article that is committed into a window whose query
has run is queued by none).
-/
import Newsforge.Digest

open PyText Tables Runs Windows

namespace Digest

open ArticleTable SafeHttp Subscriptions

/-! ### Windows of a subscription -/

/-- The windows that runs have saved for a subscription. -/
def windowsOf (i : ℕ) (windows : List (ℕ × Window Time)) : List (Window Time) :=
  (windows.filter fun e => e.1 == i).map Prod.snd

theorem windowsOf_cons_self (i : ℕ) (v : Window Time) (windows : List (ℕ × Window Time)) :
    windowsOf i ((i, v) :: windows) = v :: windowsOf i windows := by
  simp [windowsOf]

theorem windowsOf_cons_of_ne {i j : ℕ} (hne : j ≠ i) (v : Window Time)
    (windows : List (ℕ × Window Time)) :
    windowsOf i ((j, v) :: windows) = windowsOf i windows := by
  simp [windowsOf, hne]

/-- The window a run is queueing for the subscription. -/
def Phase.current (i : ℕ) : Phase → Option (Window Time)
  | .queueing now sub _ _ _ => if sub.id = i then some (window sub now) else none
  | _ => none

/-- The articles it has found there and not queued. -/
def Phase.remaining (i : ℕ) : Phase → List ℕ
  | .queueing _ sub ids _ _ => if sub.id = i then ids else []
  | _ => []

/-- The windows whose query has run. -/
def opened (i : ℕ) (l : Phase) (w : World) : List (Window Time) :=
  (l.current i).toList ++ windowsOf i w.windows

/-- The `now` of the run that is going on. -/
def Phase.now? : Phase → Option Time
  | .taken now | .loop now _ _ | .queueing now _ _ _ _ => some now
  | _ => none

/-- The `now` of a run that has loaded its subscriptions. -/
def Phase.looping? : Phase → Option Time
  | .loop now _ _ | .queueing now _ _ _ _ => some now
  | _ => none

theorem wanted_congr {pg : Postgres} {cat : Catalog} {r s : Subscription} (h : fixed r = fixed s)
    (a : Article) : wanted pg cat r a = wanted pg cat s a := by
  have hfixed : ∀ x, wanted pg cat x a = wanted pg cat (fixed x) a := fun _ => rfl
  rw [hfixed r, h, ← hfixed s]

theorem isDaily_congr {r s : Subscription} (h : fixed r = fixed s) : isDaily r = isDaily s := by
  have hfixed : ∀ x, isDaily x = isDaily (fixed x) := fun _ => rfl
  rw [hfixed r, h, ← hfixed s]

theorem key_congr {t : HostTables} {r s : Subscription} (h : fixed r = fixed s) :
    r.key t = s.key t := by
  have hfixed : ∀ x : Subscription, x.key t = (fixed x).key t := fun _ => rfl
  rw [hfixed r, h, ← hfixed s]

/-! ### The runs a claim on one subscription is about -/

/-- Nobody deletes the subscription, and its queries do not overflow. -/
def Quiet (pg : Postgres) (cat : Catalog) (i : ℕ) (c : State) : Move → Prop
  | .delete id => id ≠ i
  | .run => match c.phase with
    | .loop now (sub :: _) _ => sub.id = i →
      (matching pg cat sub (window sub now) c.articles).length ≤ maxArticlesPerDigest
    | _ => True
  | _ => True

/-- No article the subscription wants is committed into a window whose query has
run. -/
def NoLateCommit (pg : Postgres) (cat : Catalog) (sub₀ : Subscription) (c : State) : Move → Prop
  | .commit id => ∀ a ∈ c.pending, a.id = id → wanted pg cat sub₀ a = true →
    ∀ v ∈ opened sub₀.id c.phase c.toWorld, ¬ v.Contains a.createdAt
  | _ => True

/-- A system at rest, before the first run for the subscription. -/
structure AtRest (t : HostTables) (sub₀ : Subscription) (c : State) : Prop where
  phase : c.phase.resting = true
  articles : ((c.articles ++ c.pending).map Article.id).Nodup
  nextId : ∀ a ∈ c.articles ++ c.pending, a.id < c.nextId
  subs : (c.subs.map Subscription.id).Nodup
  row : sub₀ ∈ c.subs
  daily : isDaily sub₀ = true
  key : sub₀.HasKey t
  queued : c.queued = []
  windows : c.windows = []
  ended : c.ended = []

/-! ### The invariant -/

/-- Ids of articles are unique. -/
structure ArticleIds (w : World) : Prop where
  unique : ((w.articles ++ w.pending).map Article.id).Nodup
  below : ∀ a ∈ w.articles ++ w.pending, a.id < w.nextId

/-- The row of the subscription, and the copy of it that a run holds. -/
structure Rows (sub₀ : Subscription) (l : Phase) (w : World) : Prop where
  unique : (w.subs.map Subscription.id).Nodup
  row : ∃ r ∈ w.subs, r.id = sub₀.id
  same : ∀ r ∈ w.subs, r.id = sub₀.id → fixed r = fixed sub₀
  held : (l.unsaved.map Subscription.id).Nodup
  copy : ∀ s ∈ l.unsaved, s.id = sub₀.id → fixed s = fixed sub₀ ∧
    ∀ r ∈ w.subs, r.id = sub₀.id → r.lastNotifiedAt = s.lastNotifiedAt

/-- Its windows.  `linked`: the newest saved one ends at `last_notified_at`.
`due`: a run has still to save a window, or has saved one that ends at its
`now`. -/
structure Line (i : ℕ) (l : Phase) (w : World) : Prop where
  consecutive : Consecutive (opened i l w)
  past : ∀ v ∈ windowsOf i w.windows, v.upTo ≤ w.clock
  linked : ∀ v ∈ (windowsOf i w.windows).head?, ∀ r ∈ w.subs, r.id = i →
    r.lastNotifiedAt = some v.upTo
  now : ∀ n ∈ l.now?, n ≤ w.clock ∧ ∀ v ∈ windowsOf i w.windows, v.upTo ≤ n
  due : ∀ n ∈ l.looping?, (∃ s ∈ l.unsaved, s.id = i) ∨ ∃ v ∈ windowsOf i w.windows, v.upTo = n
  ended : ∀ n ∈ w.ended, ∃ v ∈ windowsOf i w.windows, v.upTo = n

/-- What was queued for it.  `count`: a wanted article of an opened window is
queued once, or is found and not queued yet; another one is neither. -/
structure Queue (pg : Postgres) (cat : Catalog) (sub₀ : Subscription) (l : Phase) (w : World) :
    Prop where
  known : ∀ e ∈ w.queued, e.1 = sub₀.id → ∃ a ∈ w.articles, a.id = e.2
  found : ∀ id ∈ l.remaining sub₀.id, ∃ a ∈ w.articles, a.id = id ∧
    ∀ v ∈ l.current sub₀.id, v.Contains a.createdAt
  count : ∀ a ∈ w.articles, wanted pg cat sub₀ a = true →
    w.queued.count (sub₀.id, a.id) + (l.remaining sub₀.id).count a.id =
      if ∃ v ∈ opened sub₀.id l w, v.Contains a.createdAt then 1 else 0

variable {t : HostTables} {pg : Postgres} {cat : Catalog} {sub₀ : Subscription} {l l' : Phase}
  {w w' : World}

/-! ### Rows -/

/-- Ids are unique: a row that has the id of a copy is the row of the copy. -/
theorem Rows.eq_of_id (h : Rows sub₀ l w) {r s : Subscription} (hr : r ∈ w.subs) (hs : s ∈ w.subs)
    (hid : r.id = s.id) : r = s :=
  List.inj_on_of_nodup_map h.unique hr hs hid

theorem Rows.effect (h : Rows sub₀ l w) (he : Effect t pg cat l w l' w') : Rows sub₀ l' w' := by
  cases he with
  | loaded n =>
    refine ⟨h.unique, h.row, h.same, ?_, fun s hs hid => ?_⟩
    · exact h.unique.sublist (List.filter_sublist.map Subscription.id)
    · have hs := (List.mem_filter.mp hs).1
      refine ⟨h.same s hs hid, fun r hr hrid => ?_⟩
      rw [h.eq_of_id hr hs (hrid.trans hid.symm)]
  | matched n sub todo sent => exact ⟨h.unique, h.row, h.same, h.held, h.copy⟩
  | queued n sub id ids todo sent => exact ⟨h.unique, h.row, h.same, h.held, h.copy⟩
  | returned | failed =>
    exact ⟨h.unique, h.row, h.same, List.nodup_nil, fun s hs => absurd hs List.not_mem_nil⟩
  | saved n sub todo sent key hkey hfound =>
    obtain ⟨hnot, hheld⟩ := List.nodup_cons.mp h.held
    refine ⟨?_, ?_, fun y hy hid => ?_, hheld, fun s hs hid => ?_⟩
    · exact (map_id_noted sub.id n key w.subs).symm ▸ h.unique
    · have hmem : sub₀.id ∈ (noted sub.id n key w.subs).map Subscription.id := by
        rw [map_id_noted]
        exact List.mem_map.mpr h.row
      exact List.mem_map.mp hmem
    · -- the save writes neither what the query reads nor what makes a row daily
      rcases mem_noted hy with ⟨hyid, -, r, hr, hrid, hfixed⟩ | ⟨-, hy⟩
      · exact hfixed.trans (h.same r hr (hrid.trans (hyid.symm.trans hid)))
      · exact h.same y hy hid
    · obtain ⟨hsame, hlast⟩ := h.copy s (List.mem_cons_of_mem _ hs) hid
      refine ⟨hsame, fun y hy hyid => ?_⟩
      rcases mem_noted hy with ⟨hysub, -⟩ | ⟨-, hy⟩
      · -- the copy that was saved is not among the others
        have heq : s.id = sub.id := hid.trans (hyid.symm.trans hysub)
        exact absurd (heq ▸ List.mem_map_of_mem hs) hnot
      · exact hlast y hy hyid

/-- A run does not fail to save the subscription. -/
theorem Rows.id_ne_of_failed {n : Time} {sub : Subscription} {ids : List ℕ}
    {todo : List Subscription} {sent : ℕ} (h : Rows sub₀ (.queueing n sub ids todo sent) w)
    (hkey : sub₀.HasKey t)
    (hfail : ∀ key, sub.key t = .ok key → ∀ r ∈ w.subs, r.id ≠ sub.id) : sub.id ≠ sub₀.id := by
  intro hid
  obtain ⟨key, hk⟩ := hkey
  obtain ⟨r, hr, hrid⟩ := h.row
  have hsame := (h.copy sub List.mem_cons_self hid).1
  exact hfail key ((key_congr hsame).trans hk) r hr (hrid.trans hid.symm)

/-! ### Windows -/

theorem current_queueing {i : ℕ} {n : Time} {sub : Subscription} {ids : List ℕ}
    {todo : List Subscription} {sent : ℕ} (hid : sub.id = i) :
    (Phase.queueing n sub ids todo sent).current i = some (window sub n) :=
  if_pos hid

theorem current_queueing_of_ne {i : ℕ} {n : Time} {sub : Subscription} {ids : List ℕ}
    {todo : List Subscription} {sent : ℕ} (hid : sub.id ≠ i) :
    (Phase.queueing n sub ids todo sent).current i = none :=
  if_neg hid

/-- The run that is going on saves a window, or does not touch the line. -/
theorem opened_saved {i : ℕ} {n : Time} {sub : Subscription} {todo : List Subscription} {sent : ℕ}
    (subs : List Subscription) :
    opened i (.loop n todo sent)
        { w with subs := subs, windows := (sub.id, window sub n) :: w.windows } =
      opened i (.queueing n sub [] todo sent) w := by
  by_cases hid : sub.id = i
  · rw [opened, opened, current_queueing hid, ← hid]
    exact windowsOf_cons_self _ _ _
  · rw [opened, opened, current_queueing_of_ne hid]
    exact windowsOf_cons_of_ne hid _ _

/-- A run opens the window that begins where the newest saved one ended. -/
theorem Line.matched {n : Time} {sub : Subscription} {todo : List Subscription} {sent : ℕ}
    (h : Line sub₀.id (.loop n (sub :: todo) sent) w)
    (hrows : Rows sub₀ (.loop n (sub :: todo) sent) w) (hid : sub.id = sub₀.id) :
    Consecutive (window sub n :: windowsOf sub₀.id w.windows) := by
  refine Consecutive.cons h.consecutive fun v hv => ?_
  obtain ⟨r, hr, hrid⟩ := hrows.row
  have hlast := (hrows.copy sub List.mem_cons_self hid).2 r hr hrid
  -- `last_notified_at` of the copy is where the newest window ended
  have hsince : since sub n = v.upTo := by
    rw [since, ← hlast, h.linked v hv r hr hrid, Option.getD_some]
  exact ⟨hsince, (h.now n rfl).2 v (List.mem_of_mem_head? hv)⟩

/-- The save of the subscription: what was the current window is the newest one now. -/
theorem Line.saved_own {n : Time} {sub : Subscription} {todo : List Subscription} {sent : ℕ}
    (h : Line sub₀.id (.queueing n sub [] todo sent) w) (hid : sub.id = sub₀.id) (key : Text) :
    Line sub₀.id (.loop n todo sent)
      { w with
        subs := noted sub.id n key w.subs
        windows := (sub.id, window sub n) :: w.windows } := by
  have hcons := h.consecutive
  rw [← opened_saved (noted sub.id n key w.subs)] at hcons
  have hnow := h.now n rfl
  have hwin : windowsOf sub₀.id ((sub.id, window sub n) :: w.windows) =
      window sub n :: windowsOf sub₀.id w.windows := by
    rw [hid]
    exact windowsOf_cons_self _ _ _
  have hend : ∀ v ∈ window sub n :: windowsOf sub₀.id w.windows, v.upTo ≤ n := by
    intro v hv
    rcases List.mem_cons.mp hv with rfl | hv
    · exact Int.le_refl n
    · exact hnow.2 v hv
  refine ⟨hcons, fun v hv => ?_, fun v hv r hr hrid => ?_, fun m hm => ?_, fun m hm => ?_,
    fun m hm => ?_⟩
  · exact Int.le_trans (hend v (hwin ▸ hv)) hnow.1
  · change v ∈ (windowsOf sub₀.id ((sub.id, window sub n) :: w.windows)).head? at hv
    rw [hwin] at hv
    cases hv
    rcases mem_noted hr with ⟨-, hlast, -⟩ | ⟨hne, -⟩
    · exact hlast
    · exact absurd (hrid.trans hid.symm) hne
  · cases hm
    exact ⟨hnow.1, fun v hv => hend v (hwin ▸ hv)⟩
  · cases hm
    exact .inr ⟨window sub n, hwin ▸ List.mem_cons_self, rfl⟩
  · obtain ⟨v, hv, hvm⟩ := h.ended m hm
    exact ⟨v, hwin ▸ List.mem_cons_of_mem _ hv, hvm⟩

/-- The save of another one does not touch the line. -/
theorem Line.saved_other {n : Time} {sub : Subscription} {todo : List Subscription} {sent : ℕ}
    (h : Line sub₀.id (.queueing n sub [] todo sent) w) (hid : sub.id ≠ sub₀.id) (key : Text) :
    Line sub₀.id (.loop n todo sent)
      { w with
        subs := noted sub.id n key w.subs
        windows := (sub.id, window sub n) :: w.windows } := by
  have hcons := h.consecutive
  rw [← opened_saved (noted sub.id n key w.subs)] at hcons
  have hnow := h.now n rfl
  have hwin : windowsOf sub₀.id ((sub.id, window sub n) :: w.windows) =
      windowsOf sub₀.id w.windows := windowsOf_cons_of_ne hid _ _
  refine ⟨hcons, fun v hv => h.past v (hwin ▸ hv), fun v hv r hr hrid => ?_, fun m hm => ?_,
    fun m hm => ?_, fun m hm => ?_⟩
  · rcases mem_noted hr with ⟨hsub, -⟩ | ⟨-, hr⟩
    · exact absurd (hsub.symm.trans hrid) hid
    · exact h.linked v (hwin ▸ hv) r hr hrid
  · cases hm
    exact ⟨hnow.1, fun v hv => hnow.2 v (hwin ▸ hv)⟩
  · cases hm
    rcases h.due n rfl with ⟨s, hs, hsid⟩ | ⟨v, hv, hvn⟩
    · rcases List.mem_cons.mp hs with rfl | hs
      · exact absurd hsid hid
      · exact .inl ⟨s, hs, hsid⟩
    · exact .inr ⟨v, hwin.symm ▸ hv, hvn⟩
  · obtain ⟨v, hv, hvm⟩ := h.ended m hm
    exact ⟨v, hwin.symm ▸ hv, hvm⟩

theorem Line.effect (h : Line sub₀.id l w) (hrows : Rows sub₀ l w) (hdaily : isDaily sub₀ = true)
    (hkey : sub₀.HasKey t) (he : Effect t pg cat l w l' w') : Line sub₀.id l' w' := by
  cases he with
  | loaded n =>
    refine ⟨h.consecutive, h.past, h.linked, h.now, fun m hm => ?_, h.ended⟩
    obtain ⟨r, hr, hid⟩ := hrows.row
    have hr' : isDaily r = true := (isDaily_congr (hrows.same r hr hid)).trans hdaily
    exact .inl ⟨r, List.mem_filter.mpr ⟨hr, hr'⟩, hid⟩
  | returned n sent =>
    refine ⟨h.consecutive, h.past, h.linked, fun m hm => ?_, fun m hm => ?_, fun m hm => ?_⟩
    · cases hm
    · cases hm
    · rcases List.mem_cons.mp hm with rfl | hm
      · rcases h.due m rfl with ⟨s, hs, -⟩ | hv
        · cases hs
        · exact hv
      · exact h.ended m hm
  | matched n sub todo sent =>
    refine ⟨?_, h.past, h.linked, h.now, h.due, h.ended⟩
    by_cases hid : sub.id = sub₀.id
    · rw [opened, current_queueing hid]
      exact h.matched hrows hid
    · rw [opened, current_queueing_of_ne hid]
      exact h.consecutive
  | queued n sub id ids todo sent =>
    exact ⟨h.consecutive, h.past, h.linked, h.now, h.due, h.ended⟩
  | saved n sub todo sent key hk hfound =>
    by_cases hid : sub.id = sub₀.id
    · exact h.saved_own hid key
    · exact h.saved_other hid key
  | failed n sub todo sent hfail =>
    have hid := hrows.id_ne_of_failed hkey hfail
    have hcons := h.consecutive
    rw [opened, current_queueing_of_ne hid] at hcons
    refine ⟨hcons, h.past, h.linked, fun m hm => ?_, fun m hm => ?_, h.ended⟩
    · cases hm
    · cases hm

/-! ### What is queued -/

/-- An article and a pending one, or two different ones, have different ids. -/
theorem ArticleIds.eq_of_id (h : ArticleIds w) {a b : Article} (ha : a ∈ w.articles ++ w.pending)
    (hb : b ∈ w.articles ++ w.pending) (hid : a.id = b.id) : a = b :=
  List.inj_on_of_nodup_map h.unique ha hb hid

/-- The query finds each article of the window once. -/
theorem count_matchSql (hids : ArticleIds w) {sub : Subscription} {v : Window Time}
    (hroom : (matching pg cat sub v w.articles).length ≤ maxArticlesPerDigest) {a : Article}
    (ha : a ∈ w.articles) (hwanted : wanted pg cat sub a = true) :
    (matchSql pg cat sub v w.articles).count a.id = if v.Contains a.createdAt then 1 else 0 := by
  rw [(matchSql_perm hroom).count_eq]
  have hsub : (matching pg cat sub v w.articles).Sublist (w.articles ++ w.pending) :=
    List.filter_sublist.trans (List.sublist_append_left _ _)
  by_cases hv : v.Contains a.createdAt
  · rw [if_pos hv]
    refine List.count_eq_one_of_mem (hids.unique.sublist (hsub.map _)) ?_
    exact List.mem_map_of_mem (mem_matching.mpr ⟨ha, hwanted, hv⟩)
  · rw [if_neg hv]
    refine List.count_eq_zero_of_not_mem fun hmem => ?_
    obtain ⟨b, hb, hid⟩ := List.mem_map.mp hmem
    have heq : b = a := hids.eq_of_id (hsub.subset hb) (List.mem_append_left _ ha) hid
    exact hv (heq ▸ (mem_matching.mp hb).2.2)

theorem remaining_queueing {i : ℕ} {n : Time} {sub : Subscription} {ids : List ℕ}
    {todo : List Subscription} {sent : ℕ} (hid : sub.id = i) :
    (Phase.queueing n sub ids todo sent).remaining i = ids :=
  if_pos hid

theorem remaining_queueing_of_ne {i : ℕ} {n : Time} {sub : Subscription} {ids : List ℕ}
    {todo : List Subscription} {sent : ℕ} (hid : sub.id ≠ i) :
    (Phase.queueing n sub ids todo sent).remaining i = [] :=
  if_neg hid

/-- The query of the subscription has run: what it found is about to be queued. -/
theorem Queue.matched {n : Time} {sub : Subscription} {todo : List Subscription} {sent : ℕ}
    (h : Queue pg cat sub₀ (.loop n (sub :: todo) sent) w) (hids : ArticleIds w)
    (hrows : Rows sub₀ (.loop n (sub :: todo) sent) w)
    (hline : Line sub₀.id (.loop n (sub :: todo) sent) w) (hid : sub.id = sub₀.id)
    (hroom : (matching pg cat sub (window sub n) w.articles).length ≤ maxArticlesPerDigest) :
    Queue pg cat sub₀
      (.queueing n sub (matchSql pg cat sub (window sub n) w.articles) todo sent) w := by
  have hfixed : fixed sub = fixed sub₀ := (hrows.copy sub List.mem_cons_self hid).1
  refine ⟨h.known, fun id hmem => ?_, fun a ha hwanted => ?_⟩
  · rw [remaining_queueing hid] at hmem
    obtain ⟨b, hb, rfl⟩ := List.mem_map.mp ((matchSql_perm hroom).mem_iff.mp hmem)
    obtain ⟨hb, -, hcontains⟩ := mem_matching.mp hb
    refine ⟨b, hb, rfl, fun v hv => ?_⟩
    rw [current_queueing hid, Option.mem_some_iff] at hv
    exact hv ▸ hcontains
  · have hcount := h.count a ha hwanted
    change _ + 0 = if ∃ v ∈ windowsOf sub₀.id w.windows, v.Contains a.createdAt then 1 else 0
      at hcount
    rw [remaining_queueing hid, opened, current_queueing hid,
      count_matchSql hids hroom ha ((wanted_congr hfixed a).trans hwanted)]
    show _ = if ∃ v ∈ window sub n :: windowsOf sub₀.id w.windows, v.Contains a.createdAt
      then 1 else 0
    by_cases hv : (window sub n).Contains a.createdAt
    · -- the new window: the article is in no older one
      have hold : ¬ ∃ v ∈ windowsOf sub₀.id w.windows, v.Contains a.createdAt := by
        rintro ⟨v, hmem, hcontains⟩
        exact (hline.matched hrows hid).not_contains hmem hcontains hv
      rw [if_neg hold] at hcount
      rw [if_pos hv, if_pos ⟨_, List.mem_cons_self, hv⟩]
      omega
    · have hiff : (∃ v ∈ window sub n :: windowsOf sub₀.id w.windows, v.Contains a.createdAt) ↔
          ∃ v ∈ windowsOf sub₀.id w.windows, v.Contains a.createdAt := by
        simp [hv]
      rw [if_neg hv, hcount]
      simp only [hiff]

theorem Queue.effect (h : Queue pg cat sub₀ l w) (hids : ArticleIds w) (hrows : Rows sub₀ l w)
    (hkey : sub₀.HasKey t) (hline : Line sub₀.id l w)
    (hroom : ∀ n sub todo sent, l = .loop n (sub :: todo) sent → sub.id = sub₀.id →
      (matching pg cat sub (window sub n) w.articles).length ≤ maxArticlesPerDigest)
    (he : Effect t pg cat l w l' w') : Queue pg cat sub₀ l' w' := by
  cases he with
  | loaded n => exact ⟨h.known, h.found, h.count⟩
  | returned n sent => exact ⟨h.known, h.found, h.count⟩
  | matched n sub todo sent =>
    by_cases hid : sub.id = sub₀.id
    · exact h.matched hids hrows hline hid (hroom n sub todo sent rfl hid)
    · refine ⟨h.known, fun id hmem => ?_, fun a ha hwanted => ?_⟩
      · rw [remaining_queueing_of_ne hid] at hmem
        cases hmem
      · rw [remaining_queueing_of_ne hid, opened, current_queueing_of_ne hid]
        exact h.count a ha hwanted
  | queued n sub id ids todo sent =>
    by_cases hid : sub.id = sub₀.id
    · have hfound := h.found
      rw [remaining_queueing hid, current_queueing hid] at hfound
      refine ⟨fun e he heid => ?_, fun x hx => ?_, fun a ha hwanted => ?_⟩
      · rcases List.mem_append.mp he with he | he
        · exact h.known e he heid
        · rw [List.mem_singleton.mp he]
          obtain ⟨a, ha, haid, -⟩ := hfound id List.mem_cons_self
          exact ⟨a, ha, haid⟩
      · rw [remaining_queueing hid] at hx
        rw [current_queueing hid]
        exact hfound x (List.mem_cons_of_mem _ hx)
      · have hcount := h.count a ha hwanted
        rw [remaining_queueing hid, List.count_cons] at hcount
        rw [remaining_queueing hid]
        show (w.queued ++ [(sub.id, id)]).count (sub₀.id, a.id) + ids.count a.id = _
        have hone : [(sub.id, id)].count (sub₀.id, a.id) = if id == a.id then 1 else 0 := by
          simp [List.count_cons, hid]
        rw [List.count_append, hone]
        exact (Nat.add_right_comm _ _ _).trans ((Nat.add_assoc _ _ _).trans hcount)
    · refine ⟨fun e he heid => ?_, fun x hx => ?_, fun a ha hwanted => ?_⟩
      · rcases List.mem_append.mp he with he | he
        · exact h.known e he heid
        · rw [List.mem_singleton.mp he] at heid
          exact absurd heid hid
      · rw [remaining_queueing_of_ne hid] at hx
        cases hx
      · have hcount := h.count a ha hwanted
        rw [remaining_queueing_of_ne hid] at hcount
        rw [remaining_queueing_of_ne hid]
        show (w.queued ++ [(sub.id, id)]).count (sub₀.id, a.id) + _ = _
        have hnone : [(sub.id, id)].count (sub₀.id, a.id) = 0 := by
          simp [hid]
        rw [List.count_append, hnone]
        exact hcount
  | saved n sub todo sent key hkey hfound =>
    refine ⟨h.known, fun id hmem => absurd hmem List.not_mem_nil, fun a ha hwanted => ?_⟩
    rw [opened_saved]
    have hnone : (Phase.queueing n sub [] todo sent).remaining sub₀.id = [] := by
      rw [Phase.remaining]
      split <;> rfl
    have hcount := h.count a ha hwanted
    rw [hnone] at hcount
    exact hcount
  | failed n sub todo sent hfail =>
    have hid := hrows.id_ne_of_failed hkey hfail
    refine ⟨h.known, fun id hmem => absurd hmem List.not_mem_nil, fun a ha hwanted => ?_⟩
    have hcount := h.count a ha hwanted
    rw [remaining_queueing_of_ne hid, opened, current_queueing_of_ne hid] at hcount
    exact hcount

/-! ### All moves -/

/-- The invariant of all moves. -/
structure WindowInv (pg : Postgres) (cat : Catalog) (sub₀ : Subscription) (c : State) : Prop where
  ids : ArticleIds c.toWorld
  rows : Rows sub₀ c.phase c.toWorld
  line : Line sub₀.id c.phase c.toWorld
  queue : Queue pg cat sub₀ c.phase c.toWorld

variable {c₀ c c' : State}

/-! Each part of the invariant reads a few tables only. -/

theorem ArticleIds.frame (h : ArticleIds w) (harticles : w'.articles = w.articles)
    (hpending : w'.pending = w.pending) (hnext : w'.nextId = w.nextId) : ArticleIds w' := by
  refine ⟨?_, ?_⟩
  · rw [harticles, hpending]
    exact h.unique
  · rw [harticles, hpending, hnext]
    exact h.below

theorem Rows.frame (h : Rows sub₀ l w) (hsubs : w'.subs = w.subs) : Rows sub₀ l w' := by
  refine ⟨?_, ?_, ?_, h.held, ?_⟩ <;> rw [hsubs]
  · exact h.unique
  · exact h.row
  · exact h.same
  · exact h.copy

theorem Line.frame {i : ℕ} (h : Line i l w) (hclock : w.clock ≤ w'.clock)
    (hsubs : ∀ r ∈ w'.subs, r ∈ w.subs) (hwindows : w'.windows = w.windows)
    (hended : w'.ended = w.ended) : Line i l w' := by
  refine ⟨?_, ?_, ?_, ?_, ?_, ?_⟩
  · rw [opened, hwindows]
    exact h.consecutive
  · rw [hwindows]
    exact fun v hv => Int.le_trans (h.past v hv) hclock
  · rw [hwindows]
    exact fun v hv r hr => h.linked v hv r (hsubs r hr)
  · rw [hwindows]
    exact fun n hn => ⟨Int.le_trans (h.now n hn).1 hclock, (h.now n hn).2⟩
  · rw [hwindows]
    exact h.due
  · rw [hwindows, hended]
    exact h.ended

theorem Queue.frame (h : Queue pg cat sub₀ l w) (hqueued : w'.queued = w.queued)
    (harticles : w'.articles = w.articles) (hwindows : w'.windows = w.windows) :
    Queue pg cat sub₀ l w' := by
  refine ⟨?_, ?_, ?_⟩
  · rw [hqueued, harticles]
    exact h.known
  · rw [harticles]
    exact h.found
  · rw [hqueued, harticles, opened, hwindows]
    exact h.count

/-- A run writes none of the articles. -/
theorem Effect.articles (he : Effect t pg cat l w l' w') :
    w'.articles = w.articles ∧ w'.pending = w.pending ∧ w'.nextId = w.nextId := by
  cases he <;> exact ⟨rfl, rfl, rfl⟩

theorem ArticleIds.insert (h : ArticleIds c.toWorld) (a : Article) :
    ArticleIds { c with pending := c.pending ++ [stamped c a], nextId := c.nextId + 1 } := by
  have hmem : ∀ b ∈ c.articles ++ (c.pending ++ [stamped c a]),
      b ∈ c.articles ++ c.pending ∨ b = stamped c a := by
    intro b hb
    rwa [← List.append_assoc, List.mem_append, List.mem_singleton] at hb
  refine ⟨?_, fun b hb => ?_⟩
  · show ((c.articles ++ (c.pending ++ [stamped c a])).map Article.id).Nodup
    rw [← List.append_assoc, List.map_append, List.nodup_append]
    refine ⟨h.unique, List.nodup_singleton _, fun x hx y hy => ?_⟩
    obtain ⟨b, hb, rfl⟩ := List.mem_map.mp hx
    rw [List.map_singleton, List.mem_singleton] at hy
    exact hy ▸ Nat.ne_of_lt (h.below b hb)
  · rcases hmem b hb with hb | rfl
    · exact Nat.lt_succ_of_lt (h.below b hb)
    · exact Nat.lt_succ_self _

theorem ArticleIds.commit (h : ArticleIds c.toWorld) {a : Article} (ha : a ∈ c.pending) :
    ArticleIds { c with pending := c.pending.erase a, articles := c.articles ++ [a] } := by
  have hperm : (c.articles ++ [a] ++ c.pending.erase a).Perm (c.articles ++ c.pending) := by
    rw [List.append_assoc]
    exact (List.perm_cons_erase ha).symm.append_left c.articles
  exact ⟨(hperm.map Article.id).nodup_iff.mpr h.unique, fun b hb => h.below b (hperm.mem_iff.mp hb)⟩

/-- An article that becomes visible, and is in no window whose query has run, was
not queued. -/
theorem Queue.commit (h : Queue pg cat sub₀ l w) (hids : ArticleIds w) {a : Article}
    (ha : a ∈ w.pending) (hlate : wanted pg cat sub₀ a = true →
      ∀ v ∈ opened sub₀.id l w, ¬ v.Contains a.createdAt) :
    Queue pg cat sub₀ l { w with pending := w.pending.erase a, articles := w.articles ++ [a] } := by
  have hother : ∀ b ∈ w.articles, b.id ≠ a.id := by
    intro b hb hid
    have hdisjoint := hids.unique
    rw [List.map_append, List.nodup_append] at hdisjoint
    exact hdisjoint.2.2 _ (List.mem_map_of_mem hb) _ (List.mem_map_of_mem ha) hid
  refine ⟨fun e he heid => ?_, fun id hid => ?_, fun b hb hwanted => ?_⟩
  · obtain ⟨b, hb, hbid⟩ := h.known e he heid
    exact ⟨b, List.mem_append_left _ hb, hbid⟩
  · obtain ⟨b, hb, hbid⟩ := h.found id hid
    exact ⟨b, List.mem_append_left _ hb, hbid⟩
  · rcases List.mem_append.mp hb with hb | hb
    · exact h.count b hb hwanted
    · rw [List.mem_singleton] at hb
      subst hb
      -- nothing that was queued or found has the id of a row that was invisible
      have hqueued : w.queued.count (sub₀.id, b.id) = 0 := by
        refine List.count_eq_zero_of_not_mem fun hmem => ?_
        obtain ⟨x, hx, hxid⟩ := h.known _ hmem rfl
        exact hother x hx hxid
      have hremaining : (l.remaining sub₀.id).count b.id = 0 := by
        refine List.count_eq_zero_of_not_mem fun hmem => ?_
        obtain ⟨x, hx, hxid, -⟩ := h.found _ hmem
        exact hother x hx hxid
      have hnone : ¬ ∃ v ∈ opened sub₀.id l w, v.Contains b.createdAt :=
        fun ⟨v, hv, hcontains⟩ => hlate hwanted v hv hcontains
      show w.queued.count _ + _ = if ∃ v ∈ opened sub₀.id l w, v.Contains b.createdAt then 1 else 0
      rw [hqueued, hremaining, if_neg hnone]

theorem Rows.delete (h : Rows sub₀ l w) {id : ℕ} (hne : id ≠ sub₀.id) :
    Rows sub₀ l { w with subs := w.subs.filter fun r => r.id != id } := by
  have hmem : ∀ r ∈ w.subs.filter (fun r => r.id != id), r ∈ w.subs :=
    fun r hr => (List.mem_filter.mp hr).1
  refine ⟨h.unique.sublist (List.filter_sublist.map _), ?_, fun r hr => h.same r (hmem r hr),
    h.held, fun s hs hid => ⟨(h.copy s hs hid).1, fun r hr => (h.copy s hs hid).2 r (hmem r hr)⟩⟩
  obtain ⟨r, hr, hid⟩ := h.row
  refine ⟨r, List.mem_filter.mpr ⟨hr, ?_⟩, hid⟩
  exact bne_iff_ne.mpr (hid ▸ hne.symm)

/-- A run begins: nothing is open, and all saved windows ended by now. -/
theorem WindowInv.begin (h : WindowInv pg cat sub₀ c) (hrest : c.phase.resting = true) :
    WindowInv pg cat sub₀ { c with phase := .taken c.clock } := by
  obtain ⟨w, l⟩ := c
  have hline := h.line
  have hqueue := h.queue
  have hopened : opened sub₀.id l w = windowsOf sub₀.id w.windows := by
    cases l with
    | idle | returned | failed => rfl
    | taken | loop | queueing => cases hrest
  have hremaining : l.remaining sub₀.id = [] := by
    cases l with
    | idle | returned | failed => rfl
    | taken | loop | queueing => cases hrest
  refine ⟨h.ids, ⟨h.rows.unique, h.rows.row, h.rows.same, List.nodup_nil,
    fun s hs => absurd hs List.not_mem_nil⟩,
    ⟨?_, hline.past, hline.linked, fun n hn => ?_, fun n hn => ?_, hline.ended⟩,
    ⟨hqueue.known, fun id hid => absurd hid List.not_mem_nil, fun a ha hwanted => ?_⟩⟩
  · show Consecutive (windowsOf sub₀.id w.windows)
    exact hopened ▸ hline.consecutive
  · cases hn
    exact ⟨Int.le_refl _, hline.past⟩
  · cases hn
  · have hcount := hqueue.count a ha hwanted
    rw [hremaining, hopened] at hcount
    exact hcount

theorem WindowInv.move (h : WindowInv pg cat sub₀ c) (hdaily : isDaily sub₀ = true)
    (hkey : sub₀.HasKey t) {m : Move} (hquiet : Quiet pg cat sub₀.id c m)
    (hlate : NoLateCommit pg cat sub₀ c m) (hnext : next t pg cat m c = some c') :
    WindowInv pg cat sub₀ c' := by
  have hline := h.line
  have hrows := h.rows
  cases m with
  | tick elapsed =>
    cases hnext
    have hle : c.clock ≤ c.clock + elapsed := Int.le_add_of_nonneg_right (Int.natCast_nonneg _)
    exact ⟨h.ids.frame rfl rfl rfl, hrows.frame rfl, hline.frame hle (fun _ hr => hr) rfl rfl,
      h.queue.frame rfl rfl rfl⟩
  | insert a =>
    cases hnext
    exact ⟨h.ids.insert a, hrows.frame rfl,
      hline.frame (Int.le_refl _) (fun _ hr => hr) rfl rfl, h.queue.frame rfl rfl rfl⟩
  | commit id =>
    obtain ⟨a, ha, rfl⟩ := Option.map_eq_some_iff.mp hnext
    have hmem := List.mem_of_find?_eq_some ha
    have hid : (a.id == id) = true := List.find?_some (p := fun b : Article => b.id == id) ha
    exact ⟨h.ids.commit hmem, hrows.frame rfl,
      hline.frame (Int.le_refl _) (fun _ hr => hr) rfl rfl,
      h.queue.commit h.ids hmem (hlate a hmem (beq_iff_eq.mp hid))⟩
  | delete id =>
    cases hnext
    exact ⟨h.ids.frame rfl rfl rfl, hrows.delete hquiet,
      hline.frame (Int.le_refl _) (fun _ hr => (List.mem_filter.mp hr).1) rfl rfl,
      h.queue.frame rfl rfl rfl⟩
  | begin =>
    rw [next] at hnext
    split at hnext
    · rename_i hrest
      cases hnext
      exact h.begin hrest
    · cases hnext
  | run =>
    obtain ⟨r, hr, rfl⟩ := Option.map_eq_some_iff.mp hnext
    have he := advance_effect hr
    obtain ⟨harticles, hpending, hnextId⟩ := he.articles
    refine ⟨h.ids.frame harticles hpending hnextId, hrows.effect he,
      hline.effect hrows hdaily hkey he,
      h.queue.effect h.ids hrows hkey hline (fun n sub todo sent hl hid => ?_) he⟩
    rw [Quiet, hl] at hquiet
    exact hquiet hid

theorem AtRest.windowInv (h : AtRest t sub₀ c) : WindowInv pg cat sub₀ c := by
  obtain ⟨w, l⟩ := c
  have hwindows : windowsOf sub₀.id w.windows = [] := by
    have hnil : w.windows = [] := h.windows
    rw [hnil]
    rfl
  have hopened : opened sub₀.id l w = [] ∧ l.remaining sub₀.id = [] ∧ l.unsaved = [] ∧
      l.now? = none ∧ l.looping? = none := by
    have hrest := h.phase
    rw [opened, hwindows]
    cases l with
    | idle | returned | failed => exact ⟨rfl, rfl, rfl, rfl, rfl⟩
    | taken | loop | queueing => cases hrest
  obtain ⟨hopened, hremaining, hunsaved, hnow, hlooping⟩ := hopened
  have hqueued : w.queued = [] := h.queued
  have hended : w.ended = [] := h.ended
  refine ⟨⟨h.articles, h.nextId⟩, ⟨h.subs, ⟨sub₀, h.row, rfl⟩, ?_, ?_, ?_⟩,
    ⟨?_, ?_, ?_, ?_, ?_, ?_⟩, ⟨?_, ?_, ?_⟩⟩
  · intro r hr hid
    rw [List.inj_on_of_nodup_map h.subs hr h.row hid]
  · show (l.unsaved.map _).Nodup
    rw [hunsaved]
    exact List.nodup_nil
  · show ∀ s ∈ l.unsaved, _
    rw [hunsaved]
    exact fun s hs => absurd hs List.not_mem_nil
  · show Consecutive (opened _ l w)
    rw [hopened]
    exact Consecutive.nil
  · show ∀ v ∈ windowsOf _ w.windows, _
    rw [hwindows]
    exact fun v hv => absurd hv List.not_mem_nil
  · show ∀ v ∈ (windowsOf _ w.windows).head?, _
    rw [hwindows]
    exact fun v hv => by cases hv
  · show ∀ n ∈ l.now?, _
    rw [hnow]
    exact fun n hn => by cases hn
  · show ∀ n ∈ l.looping?, _
    rw [hlooping]
    exact fun n hn => by cases hn
  · show ∀ n ∈ w.ended, _
    rw [hended]
    exact fun n hn => absurd hn List.not_mem_nil
  · show ∀ e ∈ w.queued, _
    rw [hqueued]
    exact fun e he => absurd he List.not_mem_nil
  · show ∀ id ∈ l.remaining _, _
    rw [hremaining]
    exact fun id hid => absurd hid List.not_mem_nil
  · intro a _ _
    show w.queued.count _ + (l.remaining _).count _ = if ∃ v ∈ opened _ l w, _ then 1 else 0
    rw [hqueued, hremaining, hopened]
    simp

theorem windowInv_of_reach (h0 : AtRest t sub₀ c₀)
    (h : Reach (next t pg cat)
      (fun c m => Quiet pg cat sub₀.id c m ∧ NoLateCommit pg cat sub₀ c m) c₀ c) :
    WindowInv pg cat sub₀ c :=
  h.invariant h0.windowInv fun _ _ _ hc hok hnext => hc.move h0.daily h0.key hok.1 hok.2 hnext

/-- A wanted article of a saved window is no longer waiting to be queued. -/
theorem WindowInv.count_of_saved (h : WindowInv pg cat sub₀ c) {a : Article}
    (ha : a ∈ c.articles) (hwanted : wanted pg cat sub₀ a = true) {v : Window Time}
    (hv : v ∈ windowsOf sub₀.id c.windows) (hcontains : v.Contains a.createdAt) :
    c.queued.count (sub₀.id, a.id) = 1 := by
  have hcount := h.queue.count a ha hwanted
  rw [if_pos ⟨v, List.mem_append_right _ hv, hcontains⟩] at hcount
  have hremaining : (c.phase.remaining sub₀.id).count a.id = 0 := by
    refine List.count_eq_zero_of_not_mem fun hmem => ?_
    obtain ⟨b, hb, hid, hcurrent⟩ := h.queue.found _ hmem
    have heq : b = a :=
      h.ids.eq_of_id (List.mem_append_left _ hb) (List.mem_append_left _ ha) hid
    -- what a run is queueing lies behind every saved window
    cases hcur : c.phase.current sub₀.id with
    | none =>
      have hnone : c.phase.remaining sub₀.id = [] := by
        cases hphase : c.phase with
        | queueing n sub ids todo sent =>
          rw [hphase, Phase.current] at hcur
          split at hcur
          · cases hcur
          · rename_i hid
            exact if_neg hid
        | idle | taken | loop | returned | failed => rfl
      rw [hnone] at hmem
      cases hmem
    | some u =>
      have hcons := h.line.consecutive
      rw [opened, hcur] at hcons
      exact hcons.not_contains hv hcontains (heq ▸ hcurrent u hcur)
  omega

/-- **Digest windows lose and repeat nothing, as long as no article is committed
into a window whose query has run.**  Each visible article that the subscription
wants is queued at most once; and once a run has ended whose `now` is not before
its `created_at`, an article behind the first window's lower bound was queued
exactly once. -/
theorem queued_by_exactly_one_run (h0 : AtRest t sub₀ c₀)
    (h : Reach (next t pg cat)
      (fun c m => Quiet pg cat sub₀.id c m ∧ NoLateCommit pg cat sub₀ c m) c₀ c)
    {a : Article} (ha : a ∈ c.articles) (hwanted : wanted pg cat sub₀ a = true) :
    c.queued.count (sub₀.id, a.id) ≤ 1 ∧
      ∀ first, (windowsOf sub₀.id c.windows).getLast? = some first → first.since < a.createdAt →
        ∀ n ∈ c.ended, a.createdAt ≤ n → c.queued.count (sub₀.id, a.id) = 1 := by
  have hc := windowInv_of_reach h0 h
  refine ⟨?_, fun first hfirst hlo n hn hhi => ?_⟩
  · have hcount := hc.queue.count a ha hwanted
    split at hcount <;> omega
  · -- the run that ended has saved a window up to its `now`
    obtain ⟨v, hv, rfl⟩ := hc.line.ended n hn
    have hsaved : Consecutive (windowsOf sub₀.id c.windows) := by
      have hcons := hc.line.consecutive
      rw [opened] at hcons
      cases hcur : c.phase.current sub₀.id with
      | none => rwa [hcur] at hcons
      | some u =>
        rw [hcur] at hcons
        exact hcons.tail
    obtain ⟨u, hu, hcontains⟩ := hsaved.covers hfirst hlo hv hhi
    exact hc.count_of_saved ha hwanted hu hcontains

/-! ### An article on time, and one that is late -/

instance (pg : Postgres) (cat : Catalog) (i : ℕ) (c : State) : (m : Move) →
    Decidable (Quiet pg cat i c m)
  | .delete id => inferInstanceAs (Decidable (id ≠ i))
  | .run => match h : c.phase with
    | .loop now (sub :: _) _ => decidable_of_iff (sub.id = i →
        (matching pg cat sub (window sub now) c.articles).length ≤ maxArticlesPerDigest)
        (by rw [Quiet, h])
    | .loop _ [] _ | .idle | .taken _ | .queueing _ _ _ _ _ | .returned _ | .failed =>
      isTrue (by rw [Quiet, h]; trivial)
  | .tick _ | .insert _ | .commit _ | .begin => isTrue trivial

instance (pg : Postgres) (cat : Catalog) (sub₀ : Subscription) (c : State) : (m : Move) →
    Decidable (NoLateCommit pg cat sub₀ c m)
  | .commit id => inferInstanceAs (Decidable (∀ a ∈ c.pending, a.id = id →
      wanted pg cat sub₀ a = true →
        ∀ v ∈ opened sub₀.id c.phase c.toWorld, ¬ v.Contains a.createdAt))
  | .tick _ | .insert _ | .delete _ | .begin | .run => isTrue trivial

/-- A daily subscription before its first run. -/
def subscriber : Subscription := dailyRow 1 1 (some 0)

def noArticles : State where
  clock := 0
  articles := []
  pending := []
  nextId := 7
  subs := [subscriber]
  queued := []
  windows := []
  ended := []
  phase := .idle

def story : Article := newArticle 1 (storyWith "a".toList "h".toList) 0 0

theorem noArticles_atRest : AtRest asciiTables subscriber noArticles :=
  ⟨rfl, List.nodup_nil, fun _ ha => absurd ha List.not_mem_nil, List.nodup_singleton _,
    List.mem_singleton_self _, rfl, ⟨_, rfl⟩, rfl, rfl, rfl⟩

/-- The article is committed between the `now` of a run and its query, and is
found there. -/
theorem queued_by_exactly_one_run_committed :
    ∃ c, Reach (next asciiTables everything oneFeed)
        (fun c m => Quiet everything oneFeed subscriber.id c m ∧
          NoLateCommit everything oneFeed subscriber c m) noArticles c ∧
      ∃ a ∈ c.articles, a.createdAt = 5 ∧ 10 ∈ c.ended ∧ c.queued.count (1, a.id) = 1 := by
  have hrun : ((exec (next asciiTables everything oneFeed)
      [.tick 5, .insert story, .tick 5, .begin, .run, .commit 7, .run, .run, .run, .run]
        noArticles).map fun c => (c.articles, c.ended, windowsOf 1 c.windows)) =
      some ([{ story with id := 7, createdAt := 5 }], [10], [⟨0, 10⟩]) := by
    decide
  obtain ⟨c, hreach, hend⟩ := Reach.exists_of_exec (fun c m =>
    Quiet everything oneFeed subscriber.id c m ∧ NoLateCommit everything oneFeed subscriber c m)
    hrun (by decide)
  have harticles : c.articles = [{ story with id := 7, createdAt := 5 }] := congrArg Prod.fst hend
  have hended : c.ended = [10] := congrArg (fun x => x.2.1) hend
  have hwindows : windowsOf 1 c.windows = [⟨0, 10⟩] := congrArg (fun x => x.2.2) hend
  have ha : { story with id := 7, createdAt := 5 } ∈ c.articles := by
    rw [harticles]
    exact List.mem_singleton_self _
  have hn : (10 : Time) ∈ c.ended := by
    rw [hended]
    exact List.mem_singleton_self _
  refine ⟨c, hreach, _, ha, rfl, hn, ?_⟩
  exact (queued_by_exactly_one_run noArticles_atRest hreach ha (by decide)).2 ⟨0, 10⟩
    (by rw [show subscriber.id = 1 from rfl, hwindows]; rfl) (by decide) 10 hn (by decide)

/-- **A late commit is lost.**  The insert was stamped before the `now` of a run
and committed behind its query; no later window reaches back to it. -/
theorem late_commit_is_lost :
    ∃ c, Reach (next asciiTables everything oneFeed) (Quiet everything oneFeed subscriber.id)
        noArticles c ∧ AtRest asciiTables subscriber noArticles ∧
      ∃ a ∈ c.articles, wanted everything oneFeed subscriber a = true ∧
        (∃ first, (windowsOf subscriber.id c.windows).getLast? = some first ∧
          first.since < a.createdAt) ∧
        (∃ n ∈ c.ended, a.createdAt ≤ n) ∧ c.queued.count (subscriber.id, a.id) = 0 := by
  have hrun : ((exec (next asciiTables everything oneFeed)
      [.tick 5, .insert story, .tick 5, .begin, .run, .run, .run, .run, .commit 7,
        .tick 10, .begin, .run, .run, .run, .run] noArticles).map
        fun c => ((c.articles, c.ended), windowsOf 1 c.windows, c.queued)) =
      some (([{ story with id := 7, createdAt := 5 }], [20, 10]), [⟨10, 20⟩, ⟨0, 10⟩], []) := by
    decide
  obtain ⟨c, hreach, hend⟩ :=
    Reach.exists_of_exec (Quiet everything oneFeed subscriber.id) hrun (by decide)
  have harticles : c.articles = [{ story with id := 7, createdAt := 5 }] :=
    congrArg (fun x => x.1.1) hend
  have hended : c.ended = [20, 10] := congrArg (fun x => x.1.2) hend
  have hwindows : windowsOf 1 c.windows = [⟨10, 20⟩, ⟨0, 10⟩] := congrArg (fun x => x.2.1) hend
  have hqueued : c.queued = [] := congrArg (fun x => x.2.2) hend
  refine ⟨c, hreach, noArticles_atRest, { story with id := 7, createdAt := 5 }, ?_, by decide,
    ⟨⟨0, 10⟩, ?_, by decide⟩, ⟨20, ?_, by decide⟩, ?_⟩
  · rw [harticles]
    exact List.mem_singleton_self _
  · show (windowsOf 1 c.windows).getLast? = _
    rw [hwindows]
    rfl
  · rw [hended]
    exact List.mem_cons_self
  · rw [hqueued]
    rfl

end Digest
