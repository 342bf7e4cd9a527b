/-
What the cleanup hides, in every run.

The runs are those of `Newsforge.Cleanup`.

* `kept_of_reach` — no row is lost, and what is hidden stays hidden;
* `PicksAt` — the move with which a run picks its rows, and what may follow it;
* `WasOld` — an article was live and old when a run picked it;
* `Counted`, `Complete` — what a run has counted, and what it has left out;
* `Reported` — the assertion of a run.

Main results: `hidden_articles_stay_hidden`, an article that is hidden keeps its entry out
of the feed; `hidden_articles_were_old`; and `cleanup_report`, a run counts different
articles, and leaves out none if it did not run out of time.
-/
import Newsforge.Batches
import Newsforge.NormalRows

open Tables Runs Batches

namespace ArticleCleanup

open ArticleTable
open ProcessArticle (World)

variable {ι : Type*} [DecidableEq ι] {c₀ c c' c₁ : Procs ι} {p : ι}

/-! ### Rows over a run -/

/-- What one move does. -/
theorem next_did {m : Move ι Act Empty} (hwf : WellFormed c.shared.db) (h : next m c = some c') :
    ∃ p a q w, m = .proc p a ∧ Did a (c.loc p) c.shared q w ∧
      c' = ⟨w, Function.update c.loc p q⟩ := by
  cases m with
  | proc p a =>
    obtain ⟨q, w, hstep, rfl⟩ := Config.next_proc.mp h
    exact ⟨p, a, q, w, rfl, step_did hwf hstep, rfl⟩
  | env e => cases e

theorem wellFormed_of_reach (hwf : WellFormed c₀.shared.db) (h : Reach next anyMove c₀ c) :
    WellFormed c.shared.db := by
  refine h.invariant (I := fun c => WellFormed c.shared.db) hwf ?_
  intro c m c' hwf _ hnext
  obtain ⟨p, a, q, w, -, hdid, rfl⟩ := next_did hwf hnext
  exact hdid.wellFormed hwf

theorem kept_of_reach (hwf : WellFormed c₀.shared.db) (h : Reach next anyMove c₀ c) {r : Article}
    (hr : r ∈ c₀.shared.db.rows) : ∃ r' ∈ c.shared.db.rows, Kept r r' := by
  induction h with
  | refl => exact ⟨r, hr, .refl r⟩
  | step h _ hnext ih =>
    obtain ⟨r₁, hr₁, hkept₁⟩ := ih
    have hwf := wellFormed_of_reach hwf h
    obtain ⟨p, a, q, w, -, hdid, rfl⟩ := next_did hwf hnext
    obtain ⟨r₂, hr₂, hkept₂⟩ := hdid.kept hwf hr₁
    exact ⟨r₂, hr₂, hkept₁.trans hkept₂⟩

/-- The article with this id is hidden. -/
def HiddenIn (rows : List Article) (id : ℕ) : Prop := ∃ r ∈ rows, r.id = id ∧ r.isDeleted = true

theorem HiddenIn.of_reach {id : ℕ} (hid : HiddenIn c₀.shared.db.rows id)
    (hwf : WellFormed c₀.shared.db) (h : Reach next anyMove c₀ c) :
    HiddenIn c.shared.db.rows id := by
  obtain ⟨r, hr, rfl, hdel⟩ := hid
  obtain ⟨r', hr', hkept⟩ := kept_of_reach hwf h hr
  exact ⟨r', hr', hkept.id, hkept.isDeleted hdel⟩

/-- **What is hidden does not come back**: however often the feed still lists the entry, the
article of the guid, or of the content where there is no guid, is the hidden one. -/
theorem hidden_articles_stay_hidden (hwf : WellFormed c₀.shared.db)
    (h : Reach next anyMove c₀ c) {r : Article} (hr : r ∈ c₀.shared.db.rows)
    (hdel : r.isDeleted = true) :
    (∃ r' ∈ c.shared.db.rows, Kept r r') ∧
      ∀ x ∈ c.shared.db.rows, x.feedId = r.feedId →
        (r.guid ≠ [] ∧ x.guid = r.guid ∨ r.guid = [] ∧ x.contentHash = r.contentHash) →
          x.id = r.id ∧ x.isDeleted = true := by
  obtain ⟨r', hr', hkept⟩ := kept_of_reach hwf h hr
  refine ⟨⟨r', hr', hkept⟩, fun x hx hfeed hsame => ?_⟩
  have hwf := wellFormed_of_reach hwf h
  have heq : x = r' := by
    rcases hsame with ⟨hne, hguid⟩ | ⟨hnil, hhash⟩
    · refine hwf.guids.eq_of_clash (fun _ _ => guidClash_symm) hx hr' ⟨?_, ?_, ?_⟩
      · rw [hfeed, hkept.feedId]
      · rw [hguid, hkept.guid]
      · rw [hguid]
        exact hne
    · refine hwf.hashes.eq_of_clash (fun _ _ => hashClash_symm) hx hr' ⟨?_, ?_⟩
      · rw [hfeed, hkept.feedId]
      · rw [hhash, hkept.contentHash hnil]
  rw [heq]
  exact ⟨hkept.id, hkept.isDeleted hdel⟩

/-- The feed lists the entry of a hidden article once more. -/
def hiddenProcs : Procs Bool where
  shared := ⟨⟨[sampleRow], 2⟩, []⟩
  loc _ := .article ⟨1, Normalizer.sampleEntry "本文".toList, .insert⟩

theorem hidden_articles_stay_hidden_sample :
    ∃ c, Reach next anyMove hiddenProcs c ∧
      c.loc true = .article ⟨1, Normalizer.sampleEntry "本文".toList,
        .finished ⟨1, false, false⟩⟩ ∧
      ∀ x ∈ c.shared.db.rows, x.feedId = 1 → x.contentHash = sampleRow.contentHash →
        x.id = 1 ∧ x.isDeleted = true := by
  have hrun : (exec next [.proc true (.article (.insert 7)), .proc true (.article (.edit 7 false)),
      .proc true (.article (.touch 7)), .proc true (.article (.claim 7)),
      .proc true (.article .ack)] hiddenProcs).map (fun c => c.loc true) =
        some (.article ⟨1, Normalizer.sampleEntry "本文".toList, .finished ⟨1, false, false⟩⟩) := by
    decide
  obtain ⟨c, hreach, hloc⟩ := Reach.exists_of_exec anyMove hrun (along_anyMove _ _)
  have hwf : WellFormed hiddenProcs.shared.db :=
    ⟨List.pairwise_singleton _ _, List.pairwise_singleton _ _, by decide, by decide⟩
  have hstay := (hidden_articles_stay_hidden hwf hreach List.mem_cons_self rfl).2
  exact ⟨c, hreach, hloc, fun x hx hfeed hhash => hstay x hx hfeed (.inr ⟨rfl, hhash⟩)⟩

/-! ### What a run has picked -/

/-- The run in the slot `p` picks no more rows. -/
def PicksNoMore (p : ι) (_ : Procs ι) (m : Move ι Act Empty) : Prop :=
  ∀ ids, m ≠ .proc p (.cleanup (.select ids))

/-- In the state `c₁` on the way to `c`, a run picks the rows `ids`; the moves behind that
are `ok`. -/
def PicksAt (ok : Procs ι → Move ι Act Empty → Prop) (c₀ c c₁ : Procs ι) (p : ι) (run : Run)
    (ids : List ℕ) : Prop :=
  Reach next anyMove c₀ c₁ ∧ (∃ n, c₁.loc p = .cleanup (run.goto (.batch n))) ∧
    ∃ c₂, next (.proc p (.cleanup (.select ids))) c₁ = some c₂ ∧ Reach next ok c₂ c

/-- The article was live and old when the run picked it. -/
def WasOld (c₀ c : Procs ι) (p : ι) (run : Run) (id : ℕ) : Prop :=
  ∃ c₁ ids, PicksAt anyMove c₀ c c₁ p run ids ∧ id ∈ ids ∧
    ∃ r ∈ c₁.shared.db.rows, r.id = id ∧ isOld run.cutoff r = true

/-- The articles a run has counted: they are different, they were old, and they are hidden. -/
def Counted (c₀ c : Procs ι) (p : ι) (run : Run) (ids : List ℕ) : Prop :=
  ids.Nodup ∧ ∀ id ∈ ids, HiddenIn c.shared.db.rows id ∧ WasOld c₀ c p run id

/-- What the last statement of the run has picked. -/
def Picked (c₀ c : Procs ι) (p : ι) (run : Run) (ids : List ℕ) : Prop :=
  ∃ c₁, PicksAt (PicksNoMore p) c₀ c c₁ p run ids

/-- Everything that was old when the run last picked its rows is hidden. -/
def Complete (c₀ c : Procs ι) (p : ι) (run : Run) : Prop :=
  ∃ c₁ ids, PicksAt (PicksNoMore p) c₀ c c₁ p run ids ∧
    ∀ r ∈ c₁.shared.db.rows, isOld run.cutoff r = true → HiddenIn c.shared.db.rows r.id

/-- The assertion of a run. -/
def Reported (c₀ c : Procs ι) (p : ι) (run : Run) : Prop :=
  match run.phase with
  | .start | .killed => True
  | .loop n | .batch n | .outOfTime n => ∃ ids, ids.length = n ∧ Counted c₀ c p run ids
  | .update n picked => ∃ ids, ids.length = n ∧ Counted c₀ c p run ids ∧
      Picked c₀ c p run picked ∧ picked.Disjoint ids
  | .swept n => (∃ ids, ids.length = n ∧ Counted c₀ c p run ids) ∧ Complete c₀ c p run

section Picks

variable {ok : Procs ι → Move ι Act Empty → Prop} {run : Run} {ids : List ℕ}

theorem PicksAt.picks (h : PicksAt ok c₀ c c₁ p run ids) :
    Picks run.cutoff c₁.shared.db.rows ids := by
  obtain ⟨-, ⟨n, hloc⟩, c₂, hselect, -⟩ := h
  obtain ⟨q, w, hstep, -⟩ := Config.next_proc.mp hselect
  rw [hloc] at hstep
  obtain ⟨⟨run', db⟩, hsweep, -⟩ := Option.map_eq_some_iff.mp hstep
  simp only [sweep, Run.goto_phase] at hsweep
  split at hsweep
  · rename_i hpicks
    exact hpicks
  · cases hsweep

/-- The moves behind the pick lead on from its state. -/
theorem PicksAt.reach (h : PicksAt ok c₀ c c₁ p run ids) : Reach next anyMove c₁ c := by
  obtain ⟨-, -, c₂, hselect, hafter⟩ := h
  exact (Reach.step .refl trivial hselect).trans (hafter.mono fun _ _ _ => trivial)

theorem PicksAt.mono (h : PicksAt ok c₀ c c₁ p run ids) (hstep : Reach next ok c c') :
    PicksAt ok c₀ c' c₁ p run ids := by
  obtain ⟨hbefore, hbatch, c₂, hselect, hafter⟩ := h
  exact ⟨hbefore, hbatch, c₂, hselect, hafter.trans hstep⟩

theorem PicksAt.wasOld (h : PicksAt ok c₀ c c₁ p run ids) {id : ℕ} (hid : id ∈ ids) :
    WasOld c₀ c p run id := by
  have hold := h.picks.2.1 id hid
  obtain ⟨hbefore, hbatch, c₂, hselect, hafter⟩ := h
  exact ⟨c₁, ids, ⟨hbefore, hbatch, c₂, hselect, hafter.mono fun _ _ _ => trivial⟩, hid, hold⟩

theorem WasOld.mono {id : ℕ} (h : WasOld c₀ c p run id) (hstep : Reach next anyMove c c') :
    WasOld c₀ c' p run id := by
  obtain ⟨c₁, ids, hpicks, hid, hold⟩ := h
  exact ⟨c₁, ids, hpicks.mono hstep, hid, hold⟩

theorem Counted.mono (h : Counted c₀ c p run ids) (hwf : WellFormed c.shared.db)
    (hstep : Reach next anyMove c c') : Counted c₀ c' p run ids :=
  ⟨h.1, fun id hid => ⟨(h.2 id hid).1.of_reach hwf hstep, (h.2 id hid).2.mono hstep⟩⟩

/-- Others do not take back what a run has reported. -/
theorem Reported.mono (h : Reported c₀ c p run) (hwf : WellFormed c.shared.db)
    (hstep : Reach next (PicksNoMore p) c c') : Reported c₀ c' p run := by
  have hany : Reach next anyMove c c' := hstep.mono fun _ _ _ => trivial
  rw [Reported] at h ⊢
  split at h
  · trivial
  · trivial
  · obtain ⟨ids, hlength, hcounted⟩ := h
    exact ⟨ids, hlength, hcounted.mono hwf hany⟩
  · obtain ⟨ids, hlength, hcounted⟩ := h
    exact ⟨ids, hlength, hcounted.mono hwf hany⟩
  · obtain ⟨ids, hlength, hcounted⟩ := h
    exact ⟨ids, hlength, hcounted.mono hwf hany⟩
  · obtain ⟨ids, hlength, hcounted, ⟨c₁, hpicks⟩, hdisjoint⟩ := h
    exact ⟨ids, hlength, hcounted.mono hwf hany, ⟨c₁, hpicks.mono hstep⟩, hdisjoint⟩
  · obtain ⟨⟨ids, hlength, hcounted⟩, c₁, picked, hpicks, hall⟩ := h
    refine ⟨⟨ids, hlength, hcounted.mono hwf hany⟩, c₁, picked, hpicks.mono hstep, ?_⟩
    exact fun r hr hold => (hall r hr hold).of_reach hwf hany

end Picks

/-! ### The assertion is kept -/

section Step

variable {run run' : Run} {picked ids : List ℕ}

/-- What a statement has picked is still in the table. -/
theorem Picked.mem_ids (h : Picked c₀ c p run picked) (hwf₀ : WellFormed c₀.shared.db) :
    ∀ id ∈ picked, id ∈ c.shared.db.rows.map Article.id := by
  intro id hid
  obtain ⟨c₁, hpicks⟩ := h
  obtain ⟨r, hr, rfl, -⟩ := hpicks.picks.2.1 id hid
  obtain ⟨r', hr', hkept⟩ :=
    kept_of_reach (wellFormed_of_reach hwf₀ hpicks.1) hpicks.reach hr
  exact List.mem_map.mpr ⟨r', hr', hkept.id⟩

/-- The statement hides what it has picked. -/
theorem hiddenIn_hide {db : Db} {id : ℕ} (hpicked : id ∈ picked)
    (hrow : id ∈ db.rows.map Article.id) : HiddenIn (hide picked db).rows id := by
  obtain ⟨r, hr, rfl⟩ := List.mem_map.mp hrow
  exact ⟨hidden r, mem_updateWhere_of hr (by simpa using hpicked), rfl, rfl⟩

/-- What was live when the statement picked its rows had not been counted. -/
theorem disjoint_of_picks (hwf : WellFormed c.shared.db) (hcounted : Counted c₀ c p run ids)
    (hpicks : Picks run.cutoff c.shared.db.rows picked) : picked.Disjoint ids := by
  intro id hpicked hid
  obtain ⟨r, hr, hrid, hold⟩ := hpicks.2.1 id hpicked
  obtain ⟨⟨x, hx, hxid, hdel⟩, -⟩ := hcounted.2 id hid
  rw [← hwf.eq_of_id hr hx (hrid.trans hxid.symm)] at hdel
  rw [isOld, hdel] at hold
  cases hold

/-- Once the statement has hidden its rows, they may be counted. -/
theorem Counted.append (hwf₀ : WellFormed c₀.shared.db) (hwf : WellFormed c.shared.db)
    (hcounted : Counted c₀ c p run ids) (hpicked : Picked c₀ c p run picked)
    (hdisjoint : picked.Disjoint ids) (hstep : Reach next anyMove c c')
    (hrows : c'.shared.db = hide picked c.shared.db) : Counted c₀ c' p run (picked ++ ids) := by
  have hin := hpicked.mem_ids hwf₀
  obtain ⟨c₁, hpicks⟩ := hpicked
  refine ⟨hpicks.picks.1.append hcounted.1 hdisjoint, fun id hid => ?_⟩
  rcases List.mem_append.mp hid with hid | hid
  · refine ⟨?_, (hpicks.wasOld hid).mono hstep⟩
    rw [hrows]
    exact hiddenIn_hide hid (hin id hid)
  · exact (hcounted.mono hwf hstep).2 id hid

/-- A statement that has picked fewer than it may has picked all. -/
theorem complete_of_short (hwf₀ : WellFormed c₀.shared.db) (hpicked : Picked c₀ c p run picked)
    (hshort : picked.length < cleanupBatch) (hstep : Reach next (PicksNoMore p) c c')
    (hrows : c'.shared.db = hide picked c.shared.db) : Complete c₀ c' p run := by
  have hin := hpicked.mem_ids hwf₀
  obtain ⟨c₁, hpicks⟩ := hpicked
  obtain ⟨hnodup, hold, hlength⟩ := hpicks.picks
  refine ⟨c₁, picked, hpicks.mono hstep, fun r hr hisOld => ?_⟩
  have hall : r.id ∈ picked := by
    refine mem_of_short_sample (l := (c₁.shared.db.rows.filter (isOld run.cutoff)).map Article.id)
      hnodup ?_ ?_ hshort r.id ?_
    · intro id hid
      obtain ⟨x, hx, rfl, hxold⟩ := hold id hid
      exact List.mem_map_of_mem (List.mem_filter.mpr ⟨hx, hxold⟩)
    · rw [List.length_map, ← List.countP_eq_length_filter]
      exact hlength
    · exact List.mem_map_of_mem (List.mem_filter.mpr ⟨hr, hisOld⟩)
  rw [hrows]
  exact hiddenIn_hide hall (hin _ hall)

/-- **A run keeps its own assertion.** -/
theorem reported_of_did {a : Act} {w : World} (hwf₀ : WellFormed c₀.shared.db)
    (hwf : WellFormed c.shared.db) (hc : Reach next anyMove c₀ c)
    (hnext : next (.proc p a) c = some c') (hshared : c'.shared = w)
    (hloc : c.loc p = .cleanup run) (h : Reported c₀ c p run)
    (hdid : Did a (.cleanup run) c.shared (.cleanup run') w) : Reported c₀ c' p run' := by
  have hstep : Reach next anyMove c c' := .step .refl trivial hnext
  have hquiet : (∀ ids, a ≠ .cleanup (.select ids)) → Reach next (PicksNoMore p) c c' := by
    intro ha
    refine .step .refl (fun ids heq => ha ids ?_) hnext
    cases heq
    rfl
  cases hdid with
  | started now monotonic hphase => exact ⟨[], rfl, List.nodup_nil, fun id hid => by cases hid⟩
  | entered monotonic n hphase htime =>
    have hmono := h.mono hwf (hquiet (by simp))
    rw [Reported, hphase] at hmono
    exact hmono
  | timedOut monotonic n hphase htime =>
    have hmono := h.mono hwf (hquiet (by simp))
    rw [Reported, hphase] at hmono
    exact hmono
  | selected picked n hphase hpicks =>
    have hhere : PicksAt (PicksNoMore p) c₀ c' c p run picked := by
      refine ⟨hc, ⟨n, ?_⟩, c', hnext, .refl⟩
      rw [hloc, Run.goto, ← hphase]
    rw [Reported, hphase] at h
    obtain ⟨ids, hlength, hcounted⟩ := h
    exact ⟨ids, hlength, hcounted.mono hwf hstep, ⟨c, hhere⟩,
      disjoint_of_picks hwf hcounted hpicks⟩
  | updated n count picked hphase hcount =>
    rw [Reported, hphase] at h
    obtain ⟨ids, hlength, hcounted, hpicked, hdisjoint⟩ := h
    have hrows : c'.shared.db = hide picked c.shared.db := by rw [hshared]
    have hnodup : picked.Nodup := by
      obtain ⟨c₁, hpicks⟩ := hpicked
      exact hpicks.picks.1
    have hpickedCount : picked.length = count := by
      rw [← hcount]
      exact (countP_mem_keys hwf.ids hnodup (hpicked.mem_ids hwf₀)).symm
    have hall : ∃ ids, ids.length = n + count ∧ Counted c₀ c' p run ids := by
      refine ⟨picked ++ ids, ?_, hcounted.append hwf₀ hwf hpicked hdisjoint hstep hrows⟩
      rw [List.length_append, hpickedCount, hlength]
      omega
    by_cases hshort : count < cleanupBatch
    · rw [if_pos hshort]
      have hlast : Reach next (PicksNoMore p) c c' := hquiet (by simp)
      exact ⟨hall, complete_of_short hwf₀ hpicked (hpickedCount ▸ hshort) hlast hrows⟩
    · rw [if_neg hshort]
      exact hall
  | killed hlive => trivial

end Step

/-- Every run has done what it reports. -/
theorem reported_of_reach (hwf : WellFormed c₀.shared.db)
    (hstart : ∀ p run, c₀.loc p = .cleanup run → run.phase = .start)
    (h : Reach next anyMove c₀ c) :
    ∀ p run, c.loc p = .cleanup run → Reported c₀ c p run := by
  induction h with
  | refl =>
    intro p run hloc
    rw [Reported, hstart p run hloc]
    trivial
  | @step c c' m h hok hnext ih =>
    intro p run hloc
    have hwfc := wellFormed_of_reach hwf h
    obtain ⟨q, a, l, w, rfl, hdid, rfl⟩ := next_did hwfc hnext
    by_cases hp : p = q
    · subst hp
      have hl : l = .cleanup run := (Function.update_self p l c.loc).symm.trans hloc
      subst hl
      cases hold : c.loc p with
      | article t =>
        rw [hold] at hdid
        cases hdid
      | cleanup run₀ =>
        rw [hold] at hdid
        exact reported_of_did hwf hwfc h hnext rfl hold (ih p run₀ hold) hdid
    · have hquiet : PicksNoMore p c (.proc q a) := by
        rintro ids heq
        cases heq
        exact hp rfl
      have hother : c.loc p = .cleanup run := (Function.update_of_ne hp l c.loc).symm.trans hloc
      exact (ih p run hother).mono hwfc (.step .refl hquiet hnext)

/-! ### The results -/

/-- **What is hidden was old**: some run found it live and older than the days it was given. -/
theorem hidden_articles_were_old (hwf : WellFormed c₀.shared.db)
    (hstart : ∀ p run, c₀.loc p = .cleanup run → run.phase = .start)
    (h : Reach next anyMove c₀ c) {id : ℕ} (hdel : HiddenIn c.shared.db.rows id) :
    HiddenIn c₀.shared.db.rows id ∨ ∃ p run, WasOld c₀ c p run id := by
  induction h with
  | refl => exact .inl hdel
  | @step c c' m h hok hnext ih =>
    have hwfc := wellFormed_of_reach hwf h
    have hstep : Reach next anyMove c c' := .step .refl hok hnext
    have hbefore : HiddenIn c.shared.db.rows id →
        HiddenIn c₀.shared.db.rows id ∨ ∃ p run, WasOld c₀ c' p run id :=
      fun hid => (ih hid).imp_right fun ⟨p, run, hold⟩ => ⟨p, run, hold.mono hstep⟩
    obtain ⟨q, a, l, w, -, hdid, rfl⟩ := next_did hwfc hnext
    obtain ⟨r', hr', rfl, hdel⟩ := hdel
    generalize hloc : c.loc q = l₀ at hdid
    cases hdid with
    | article heffect =>
      obtain ⟨r, hr, hid, hdel⟩ := (rewrites_of_effect hwfc heffect).of_hidden hr' hdel
      exact hbefore ⟨r, hr, hid, hdel⟩
    | @updated run _ n count picked hphase hcount =>
      obtain ⟨r, hr, rfl⟩ := mem_updateWhere.mp hr'
      by_cases hpicked : r.id ∈ picked
      · -- the statement of this run has picked it
        have hreport := reported_of_reach hwf hstart h q run hloc
        rw [Reported, hphase] at hreport
        obtain ⟨-, -, -, ⟨c₁, hpicks⟩, -⟩ := hreport
        refine .inr ⟨q, run, ?_⟩
        rw [if_pos (decide_eq_true hpicked)]
        exact (hpicks.wasOld hpicked).mono hstep
      · have hno : ¬ decide (r.id ∈ picked) = true := by simpa using hpicked
        rw [if_neg hno] at hdel
        exact hbefore ⟨r, hr, by rw [if_neg hno], hdel⟩
    | started | entered | timedOut | selected | killed => exact hbefore ⟨r', hr', rfl, hdel⟩

/-- The run of `sampleMoves`, once it is over. -/
def sampleRun : Run := ⟨1, 2 * 86400 * 1000000, 240 * 1000000, .swept 1⟩

theorem sampleProcs_start : ∀ p run, sampleProcs.loc p = .cleanup run → run.phase = .start := by
  intro p run hloc
  cases p with
  | true => cases hloc
  | false =>
    cases hloc
    rfl

theorem sampleMoves_reach :
    ∃ c, Reach next anyMove sampleProcs c ∧
      (c.shared.db.rows, c.loc false) = ([sampleRow], .cleanup sampleRun) := by
  have hrun : (exec next sampleMoves sampleProcs).map
      (fun c => (c.shared.db.rows, c.loc false)) = some ([sampleRow], .cleanup sampleRun) := by
    decide
  exact Reach.exists_of_exec anyMove hrun (along_anyMove _ _)

theorem hidden_articles_were_old_sample :
    ∃ c, Reach next anyMove sampleProcs c ∧ HiddenIn c.shared.db.rows 1 ∧
      (HiddenIn [] 1 ∨ ∃ p run, WasOld sampleProcs c p run 1) := by
  obtain ⟨c, hreach, hc⟩ := sampleMoves_reach
  have hhidden : HiddenIn c.shared.db.rows 1 := by
    rw [(Prod.mk.inj hc).1]
    exact ⟨sampleRow, List.mem_cons_self, rfl, rfl⟩
  exact ⟨c, hreach, hhidden,
    hidden_articles_were_old WellFormed.empty sampleProcs_start hreach hhidden⟩

/-- What a run has counted. -/
def Phase.affected? : Phase → Option ℕ
  | .loop n | .batch n | .update n _ | .swept n | .outOfTime n => some n
  | .start | .killed => none

/-- **What a run reports is true**: it counts every article once, each was old and is hidden;
and if it did not run out of time, then everything is hidden that was old when it picked
its last batch. -/
theorem cleanup_report (hwf : WellFormed c₀.shared.db)
    (hstart : ∀ p run, c₀.loc p = .cleanup run → run.phase = .start)
    (h : Reach next anyMove c₀ c) {run : Run} (hloc : c.loc p = .cleanup run) {n : ℕ}
    (hn : run.phase.affected? = some n) :
    (∃ ids, ids.length = n ∧ Counted c₀ c p run ids) ∧
      (run.phase = .swept n → Complete c₀ c p run) := by
  have hreport := reported_of_reach hwf hstart h p run hloc
  rw [Reported] at hreport
  cases hphase : run.phase with
  | start | killed =>
    rw [hphase] at hn
    cases hn
  | loop m | batch m | outOfTime m =>
    rw [hphase] at hn hreport
    cases hn
    exact ⟨hreport, fun hswept => by cases hswept⟩
  | update m picked =>
    rw [hphase] at hn hreport
    cases hn
    obtain ⟨ids, hlength, hcounted, -⟩ := hreport
    exact ⟨⟨ids, hlength, hcounted⟩, fun hswept => by cases hswept⟩
  | swept m =>
    rw [hphase] at hn hreport
    cases hn
    exact ⟨hreport.1, fun _ => hreport.2⟩

theorem cleanup_report_sample :
    ∃ c, Reach next anyMove sampleProcs c ∧
      (∃ ids, ids.length = 1 ∧ Counted sampleProcs c false sampleRun ids) ∧
        Complete sampleProcs c false sampleRun := by
  obtain ⟨c, hreach, hc⟩ := sampleMoves_reach
  have hreport := cleanup_report WellFormed.empty sampleProcs_start hreach (Prod.mk.inj hc).2
    (rfl : sampleRun.phase.affected? = some 1)
  exact ⟨c, hreach, hreport.1, hreport.2 rfl⟩

end ArticleCleanup
