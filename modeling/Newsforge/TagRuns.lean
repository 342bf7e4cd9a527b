/-
What the tag rules leave behind, whoever else is at the tables.

The runs are those of `Newsforge.TagEngine`: any number of chains, workers killed at any
point, and staff, owners and other tasks at all tables.

* `Settled` — the assertion of a chain: what it has attached is attached, and so is every
  tag of a rule that applied, unless its turn is still to come;
* `Keeps` — nobody takes a tag off the article;
* `Backed` — a chain that goes over its tags is at existing ones, and at its second look-up
  the row is there.

Main results: `rule_tags_are_assigned_once`, no two chains both say that they attached a
tag; `get_or_create_survives_races`, a race for a row does not end a chain; and
`tagged_subscription_is_queued`, the fan-out finds the subscriptions to a tag that a rule
has given.
-/
import Newsforge.LetterCase
import Newsforge.TagEngine

open PyText Tables Runs

namespace Tagging

open ArticleTable Digest Normalizer Subscriptions

variable {ι : Type*} [DecidableEq ι] {k : Tools} {pg : Postgres} {t t' u : Task} {w w' : World}
  {c₀ c c' c₁ c₂ : Chains ι} {p q : ι}

/-! ### One article -/

/-- Nobody takes a tag off the article. -/
def Keeps (article : ℕ) : Chains ι → Move ι Action Outside → Prop
  | _, .env (.detach x _) => x ≠ article
  | c, .env (.deleteTag tag) => (article, tag) ∉ c.shared.links
  | _, _ => True

/-- The tags whose turn is still to come; `none` once the loop has failed. -/
def Phase.pending : Phase → Option (List ℕ)
  | .assign todo => some todo
  | .create tag todo | .again tag todo => some (tag :: todo)
  | .failed | .died false => none
  | .start | .loaded _ | .fanout | .publish _ | .done | .died true => some []

/-- What a chain can say of an article, from the links `before` it on. -/
structure Settled (article : ℕ) (before : List (ℕ × ℕ)) (t : Task) (w : World) : Prop where
  nodup : t.assigned.Nodup
  assigned : ∀ tag ∈ t.assigned, (article, tag) ∈ w.links ∧ (article, tag) ∉ before
  matched : ∀ todo, t.phase.pending = some todo →
    ∀ tag ∈ t.matched, (article, tag) ∈ w.links ∨ tag ∈ todo

variable {article : ℕ} {before : List (ℕ × ℕ)}

/-- The same tags, in a later phase. -/
theorem Settled.goto {phase : Phase} (h : Settled article before t w)
    (hpending : ∀ todo, phase.pending = some todo → ∃ todo', t.phase.pending = some todo' ∧
      ∀ tag ∈ todo', (article, tag) ∈ w.links ∨ tag ∈ todo) :
    Settled article before (t.goto phase) w where
  nodup := h.nodup
  assigned := h.assigned
  matched todo htodo tag htag := by
    obtain ⟨todo', htodo', hsub⟩ := hpending todo htodo
    rcases h.matched todo' htodo' tag htag with hin | hin
    · exact .inl hin
    · exact hsub tag hin

/-- More links. -/
theorem Settled.mono (h : Settled article before t w)
    (hlinks : ∀ tag, (article, tag) ∈ w.links → (article, tag) ∈ w'.links) :
    Settled article before t w' where
  nodup := h.nodup
  assigned tag htag := (h.assigned tag htag).imp_left (hlinks tag)
  matched todo htodo tag htag := (h.matched todo htodo tag htag).imp_left (hlinks tag)

/-- The links of the article are kept. -/
theorem Did.links (h : Did k pg t w t' w') {l : ℕ × ℕ} (hl : l ∈ w.links) : l ∈ w'.links := by
  cases h with
  | created => exact List.mem_cons_of_mem _ hl
  | published => exact hl
  | got | missing | unread | loaded | tagged | found | unfound | lost | raised | selected | finished
  | refused | died | resumed | restarted => exact hl

theorem Did.article_eq (h : Did k pg t w t' w') : t'.article = t.article := by
  cases h <;> rfl

/-- A step of the chain itself. -/
theorem Settled.own (h : Settled t.article before t w)
    (hbefore : ∀ l ∈ before, l.1 = t.article → l ∈ w.links) (hdid : Did k pg t w t' w') :
    Settled t.article before t' w' := by
  cases hdid with
  | got a hphase =>
    refine h.goto fun todo htodo => ⟨[], by rw [hphase]; rfl, ?_⟩
    exact fun tag hin => absurd hin List.not_mem_nil
  | missing | unread | refused => exact h.goto fun todo htodo => by cases htodo
  | loaded a text tags hphase hread hmem =>
    refine ⟨List.nodup_nil, fun tag htag => absurd htag List.not_mem_nil, ?_⟩
    intro todo htodo tag htag
    cases htodo
    exact .inr htag
  | tagged hphase =>
    refine h.goto fun todo htodo => ⟨[], by rw [hphase]; rfl, ?_⟩
    exact fun tag hin => absurd hin List.not_mem_nil
  | found tag todo hphase hin =>
    refine h.goto fun todo' htodo => ⟨tag :: todo, ?_, fun x hx => ?_⟩
    · rcases hphase with hphase | hphase <;> rw [hphase] <;> rfl
    · cases htodo
      rcases List.mem_cons.mp hx with rfl | hx
      · exact .inl hin
      · exact .inr hx
  | unfound tag todo hphase =>
    refine h.goto fun todo' htodo => ⟨tag :: todo, by rw [hphase]; rfl, fun x hx => ?_⟩
    cases htodo
    exact .inr hx
  | lost tag todo hphase => exact h.goto fun todo htodo => by cases htodo
  | created tag todo hphase hnew =>
    have hfresh : tag ∉ t.assigned := fun hin => hnew (h.assigned tag hin).1
    refine ⟨?_, fun x hx => ?_, fun todo' htodo x hx => ?_⟩
    · exact List.nodup_append.mpr ⟨h.nodup, List.nodup_singleton tag, by
        rintro x hx y hy rfl
        exact hfresh (List.mem_singleton.mp hy ▸ hx)⟩
    · rcases List.mem_append.mp hx with hx | hx
      · exact (h.assigned x hx).imp_left (List.mem_cons_of_mem _)
      · rw [List.mem_singleton.mp hx]
        exact ⟨List.mem_cons_self, fun hin => hnew (hbefore _ hin rfl)⟩
    · cases htodo
      rcases h.matched (tag :: todo) (by rw [hphase]; rfl) x hx with hin | hin
      · exact .inl (List.mem_cons_of_mem _ hin)
      · rcases List.mem_cons.mp hin with rfl | hin
        · exact .inl List.mem_cons_self
        · exact .inr hin
  | raised tag todo hphase hwhy =>
    refine h.goto fun todo' htodo => ⟨tag :: todo, by rw [hphase]; rfl, fun x hx => ?_⟩
    cases htodo
    exact .inr hx
  | selected ids hphase =>
    refine h.goto fun todo htodo => ⟨[], by rw [hphase]; rfl, ?_⟩
    exact fun tag hin => absurd hin List.not_mem_nil
  | finished hphase =>
    refine h.goto fun todo htodo => ⟨[], by rw [hphase]; rfl, ?_⟩
    exact fun tag hin => absurd hin List.not_mem_nil
  | published sub ids hphase =>
    refine Settled.mono (w := w) (h.goto fun todo htodo => ⟨[], by rw [hphase]; rfl, ?_⟩)
      fun tag hin => hin
    exact fun tag hin => absurd hin List.not_mem_nil
  | died hlive =>
    -- the tags of the rules are attached if the fan-out was next
    refine h.goto fun todo htodo => ⟨[], ?_, fun tag hin => absurd hin List.not_mem_nil⟩
    cases hphase : t.phase with
    | fanout | publish => rfl
    | _ =>
      rw [hphase] at htodo
      cases htodo
  | resumed hphase =>
    refine h.goto fun todo htodo => ⟨[], by rw [hphase]; rfl, ?_⟩
    exact fun tag hin => absurd hin List.not_mem_nil
  | restarted hphase =>
    refine ⟨List.nodup_nil, fun tag htag => absurd htag List.not_mem_nil, ?_⟩
    exact fun todo htodo tag htag => absurd htag List.not_mem_nil

/-- The chains of an article have attached different tags. -/
def Apart (article : ℕ) (t u : Task) : Prop :=
  t.article = article → u.article = article → t.assigned.Disjoint u.assigned

/-- What a chain attaches, no other has attached. -/
theorem Apart.step (h : Apart article t u) (hu : u.article = article → Settled article before u w)
    (hdid : Did k pg t w t' w') : Apart article t' u := by
  cases hdid with
  | created tag todo hphase hnew =>
    intro ht harticle x hx hxu
    have ht : t.article = article := ht
    rcases List.mem_append.mp hx with hx | hx
    · exact h ht harticle hx hxu
    · rw [List.mem_singleton.mp hx] at hxu
      rw [ht] at hnew
      exact hnew (((hu harticle).assigned tag hxu).1)
  | loaded | restarted =>
    intro _ _ x hx
    cases hx
  | got | missing | unread | tagged | found | unfound | lost | raised | selected | finished | published
  | refused | died | resumed => exact h

omit [DecidableEq ι] in
/-- Others leave the links of the article, too. -/
theorem links_outside {e : Outside} (hkeep : Keeps article c (.env e))
    (h : outside e c.shared = some w) {tag : ℕ} (hl : (article, tag) ∈ c.shared.links) :
    (article, tag) ∈ w.links := by
  cases e with
  | attach x y =>
    obtain ⟨-, -, -, rfl⟩ := insert_eq_some.mp h
    exact List.mem_cons_of_mem _ hl
  | detach x y =>
    cases h
    have hne : x ≠ article := hkeep
    exact List.mem_filter.mpr ⟨hl, by simp [Ne.symm hne]⟩
  | createTag y =>
    rw [outside] at h
    split at h
    · cases h
    · cases h
      exact hl
  | deleteTag y =>
    cases h
    have hno : (article, y) ∉ c.shared.links := hkeep
    refine List.mem_filter.mpr ⟨hl, ?_⟩
    have hne : tag ≠ y := by
      rintro rfl
      exact hno hl
    simpa using hne
  | write | setRules | setFeeds | setSubs =>
    cases h
    exact hl

/-- No chain has started. -/
def Fresh (c : Chains ι) : Prop :=
  ∀ p, (c.loc p).phase = .start ∧ (c.loc p).matched = [] ∧ (c.loc p).assigned = []

/-- The assertions of the chains of an article, in every state. -/
theorem meets_of_reach (hfresh : Fresh c₀) (h : Reach (next k pg) (Keeps article) c₀ c) :
    Config.Meets (fun w => ∀ l ∈ c₀.shared.links, l.1 = article → l ∈ w.links)
      (fun t w => t.article = article → Settled article c₀.shared.links t w) (Apart article) c := by
  refine Config.invariant_of_assertions ?_ ?_ ?_ ?_ ?_ ?_ h
  · exact fun t u h hu ht x hx hxt => h ht hu hxt hx
  · -- the chain that moves
    intro c p a t w hc _ hstep
    have hdid := step_did hstep
    refine ⟨fun l hl harticle => hdid.links (hc.shared l hl harticle), fun ht => ?_⟩
    have harticle : (c.loc p).article = article := hdid.article_eq.symm.trans ht
    subst harticle
    exact (hc.each p rfl).own hc.shared hdid
  · -- the others
    intro c p a t w q hc _ hstep _ hq
    exact (hc.each q hq).mono fun tag hin => (step_did hstep).links hin
  · intro c p a t w q hc _ hstep hq
    exact Apart.step (hc.pair p q hq.symm) (hc.each q) (step_did hstep)
  · intro c e w hc hkeep houtside
    refine ⟨fun l hl harticle => ?_, fun p hp => ?_⟩
    · have hin := hc.shared l hl harticle
      rw [← harticle] at hkeep
      exact links_outside hkeep houtside hin
    · exact (hc.each p hp).mono fun tag hin => links_outside hkeep houtside hin
  · -- nothing is attached yet
    refine ⟨fun l hl _ => hl, fun p _ => ?_, fun p q _ _ _ x hx => ?_⟩
    · obtain ⟨hphase, hmatched, hassigned⟩ := hfresh p
      refine ⟨?_, ?_, ?_⟩
      · rw [hassigned]
        exact List.nodup_nil
      · rw [hassigned]
        exact fun tag htag => absurd htag List.not_mem_nil
      · rw [hmatched]
        exact fun todo _ tag htag => absurd htag List.not_mem_nil
    · rw [(hfresh p).2.2] at hx
      cases hx

/-- **A tag is attached by one chain.**  However chains and others interleave, the tags that
the chains of an article say they attached are there, were not there before, and are
different ones; and behind the loop every tag of a rule that applied is there. -/
theorem rule_tags_are_assigned_once (hfresh : Fresh c₀)
    (h : Reach (next k pg) (Keeps article) c₀ c) (hp : (c.loc p).article = article) :
    (c.loc p).assigned.Nodup ∧
      (∀ tag ∈ (c.loc p).assigned,
        (article, tag) ∈ c.shared.links ∧ (article, tag) ∉ c₀.shared.links) ∧
      (∀ q, q ≠ p → (c.loc q).article = article →
        (c.loc q).assigned.Disjoint (c.loc p).assigned) ∧
      ((c.loc p).phase.pending = some [] →
        ∀ tag ∈ (c.loc p).matched, (article, tag) ∈ c.shared.links) := by
  have hc := meets_of_reach hfresh h
  have hset := hc.each p hp
  refine ⟨hset.nodup, hset.assigned, fun q hq hq' => hc.pair q p hq hq' hp, ?_⟩
  intro hpending tag htag
  exact (hset.matched [] hpending tag htag).resolve_right List.not_mem_nil

/-! ### Races for a row -/

/-- The foreign key of `tags_tagrule`. -/
def World.RulesRefer (w : World) : Prop := ∀ r ∈ w.rules, r.tagId ∈ w.tags

/-- Nobody takes a tag off the article or deletes one that a chain of the article is still
to attach, and rules are for tags that exist. -/
def Spares (article : ℕ) (c : Chains ι) (m : Move ι Action Outside) : Prop :=
  Keeps article c m ∧
    match m with
    | .env (.deleteTag tag) => ∀ p todo, (c.loc p).article = article →
        (c.loc p).phase.pending = some todo → tag ∉ todo
    | .env (.setRules rules) => ∀ r ∈ rules, r.tagId ∈ c.shared.tags
    | _ => True

/-- The tags that a chain goes over, once it has its article. -/
def Phase.tags : Phase → Option (List ℕ)
  | .loaded _ => some []
  | .assign todo => some todo
  | .create tag todo | .again tag todo => some (tag :: todo)
  | _ => none

/-- What a chain that goes over its tags relies on. -/
structure Backed (t : Task) (w : World) : Prop where
  exist : ∀ todo, t.phase.tags = some todo → t.article ∈ w.articleIds ∧ ∀ tag ∈ todo, tag ∈ w.tags
  again : ∀ tag todo, t.phase = .again tag todo → (t.article, tag) ∈ w.links

/-- Where nothing is gone over. -/
theorem Backed.of_none (htags : t.phase.tags = none) : Backed t w where
  exist todo htodo := by
    rw [htags] at htodo
    cases htodo
  again tag todo hphase := by
    rw [hphase] at htags
    cases htags

/-- On to some of the tags, not to a second look-up. -/
theorem Backed.goto {phase : Phase} {todo : List ℕ} (h : Backed t w)
    (htodo : t.phase.tags = some todo) (hrest : ∀ todo', phase.tags = some todo' → todo' ⊆ todo)
    (hagain : ∀ tag todo', phase = .again tag todo' → (t.article, tag) ∈ w.links) :
    Backed (t.goto phase) w where
  exist todo' htodo' :=
    (h.exist todo htodo).imp_right fun hall tag htag => hall tag (hrest todo' htodo' htag)
  again := hagain

/-- No article, link or needed tag is lost. -/
theorem Backed.mono (h : Backed t w) (harticles : ∀ x ∈ w.articleIds, x ∈ w'.articleIds)
    (htags : ∀ todo, t.phase.tags = some todo → ∀ tag ∈ todo, tag ∈ w.tags → tag ∈ w'.tags)
    (hlinks : ∀ tag, (t.article, tag) ∈ w.links → (t.article, tag) ∈ w'.links) : Backed t w' where
  exist todo htodo :=
    (h.exist todo htodo).imp (harticles _) fun hall tag htag => htags todo htodo tag htag (hall tag htag)
  again tag todo hphase := hlinks tag (h.again tag todo hphase)

/-- A chain writes neither articles nor tags nor rules. -/
theorem Did.kept (h : Did k pg t w t' w') :
    w'.articleIds = w.articleIds ∧ w'.tags = w.tags ∧ w'.rules = w.rules := by
  cases h <;> exact ⟨rfl, rfl, rfl⟩

/-- A step of the chain itself.  An insert that raises has met the row: article and tag are
there. -/
theorem Backed.own (h : Backed t w) (hrules : w.RulesRefer) (hdid : Did k pg t w t' w') :
    Backed t' w' := by
  cases hdid with
  | got a hphase ha hid =>
    refine ⟨fun todo htodo => ?_, fun tag todo hagain => by cases hagain⟩
    cases htodo
    exact ⟨List.mem_map.mpr ⟨a, ha, hid⟩, fun tag htag => absurd htag List.not_mem_nil⟩
  | loaded a text tags hphase hread hmem =>
    refine ⟨fun todo htodo => ?_, fun tag todo hagain => by cases hagain⟩
    cases htodo
    refine ⟨(h.exist [] (by rw [hphase]; rfl)).1, fun tag htag => ?_⟩
    obtain ⟨r, hr, -, -, rfl⟩ := (hmem tag).mp htag
    exact hrules r hr
  | found tag todo hphase =>
    have htodo : t.phase.tags = some (tag :: todo) := by
      rcases hphase with hphase | hphase <;> rw [hphase] <;> rfl
    refine h.goto htodo (fun todo' h' => ?_) fun _ _ hagain => by cases hagain
    cases h'
    exact List.subset_cons_self tag todo
  | unfound tag todo hphase =>
    have htodo : t.phase.tags = some (tag :: todo) := by
      rw [hphase]
      rfl
    refine h.goto htodo (fun todo' h' => ?_) fun _ _ hagain => by cases hagain
    cases h'
    exact List.Subset.refl _
  | raised tag todo hphase hwhy =>
    have htags : t.phase.tags = some (tag :: todo) := by
      rw [hphase]
      rfl
    obtain ⟨harticle, hall⟩ := h.exist _ htags
    have hlink : (t.article, tag) ∈ w.links :=
      hwhy.resolve_right fun hno =>
        hno.elim (· harticle) (· (hall tag List.mem_cons_self))
    refine h.goto htags (fun todo' h' => ?_) fun tag' todo' hagain => ?_
    · cases h'
      exact List.Subset.refl _
    · cases hagain
      exact hlink
  | created tag todo hphase =>
    refine ⟨fun todo' htodo => ?_, fun tag todo hagain => by cases hagain⟩
    cases htodo
    exact (h.exist (tag :: todo) (by rw [hphase]; rfl)).imp_right fun hall x hx =>
      hall x (List.mem_cons_of_mem tag hx)
  | missing | unread | tagged | lost | selected | finished | published | refused | died | resumed
  | restarted => exact .of_none rfl

omit [DecidableEq ι] in
/-- Others keep what the chains of the article rely on. -/
theorem backed_outside {e : Outside} (hspares : Spares article c (.env e))
    (h : outside e c.shared = some w) (hrules : c.shared.RulesRefer) :
    w.RulesRefer ∧ ∀ p, (c.loc p).article = article → Backed (c.loc p) c.shared →
      Backed (c.loc p) w := by
  have hlinks : ∀ p, (c.loc p).article = article → ∀ tag,
      ((c.loc p).article, tag) ∈ c.shared.links → ((c.loc p).article, tag) ∈ w.links := by
    intro p hp tag hin
    rw [hp] at hin ⊢
    exact links_outside hspares.1 h hin
  cases e with
  | attach x y =>
    obtain ⟨-, -, -, rfl⟩ := insert_eq_some.mp h
    exact ⟨hrules, fun p hp hb => hb.mono (fun _ hx => hx) (fun _ _ _ _ hx => hx) (hlinks p hp)⟩
  | createTag y =>
    rw [outside] at h
    split at h
    · cases h
    · cases h
      exact ⟨fun r hr => List.mem_cons_of_mem y (hrules r hr), fun p hp hb =>
        hb.mono (fun _ hx => hx) (fun _ _ _ _ hx => List.mem_cons_of_mem y hx) (hlinks p hp)⟩
  | deleteTag y =>
    cases h
    refine ⟨fun r hr => ?_, fun p hp hb => hb.mono (fun _ hx => hx) ?_ (hlinks p hp)⟩
    · obtain ⟨hr, hne⟩ := List.mem_filter.mp hr
      exact List.mem_filter.mpr ⟨hrules r hr, hne⟩
    · -- its turn is still to come, so nobody deletes it
      intro todo htodo tag htag hin
      refine List.mem_filter.mpr ⟨hin, ?_⟩
      have hpending : (c.loc p).phase.pending = some todo := by
        cases hphase : (c.loc p).phase <;> rw [hphase] at htodo <;> cases htodo <;> rfl
      have hno := hspares.2 p todo hp hpending
      have hne : tag ≠ y := by
        rintro rfl
        exact hno htag
      simpa using hne
  | setRules rules =>
    cases h
    exact ⟨hspares.2, fun p hp hb => hb.mono (fun _ hx => hx) (fun _ _ _ _ hx => hx) (hlinks p hp)⟩
  | write a =>
    cases h
    refine ⟨hrules, fun p hp hb => hb.mono (fun x hx => ?_) (fun _ _ _ _ hx => hx) (hlinks p hp)⟩
    obtain ⟨b, hb', hid⟩ := List.mem_map.mp hx
    by_cases hsame : b.id = a.id
    · exact List.mem_map.mpr ⟨a, mem_put_self a c.shared.articles, hsame.symm.trans hid⟩
    · exact List.mem_map.mpr ⟨b, mem_put_of_ne hb' hsame, hid⟩
  | detach | setFeeds | setSubs =>
    cases h
    exact ⟨hrules, fun p hp hb => hb.mono (fun _ hx => hx) (fun _ _ _ _ hx => hx) (hlinks p hp)⟩

/-- The chains of an article rely on what is there, in every state. -/
theorem backed_of_reach (hfresh : Fresh c₀) (hrules : c₀.shared.RulesRefer)
    (h : Reach (next k pg) (Spares article) c₀ c) (hp : (c.loc p).article = article) :
    Backed (c.loc p) c.shared := by
  refine (Config.invariant_of_assertions (G := World.RulesRefer)
    (P := fun t w => t.article = article → Backed t w) (Q := fun _ _ => True)
    ?_ ?_ ?_ ?_ ?_ ?_ h).each p hp
  · exact fun _ _ _ => trivial
  · -- the chain that moves
    intro c p a t w hc _ hstep
    have hdid := step_did hstep
    obtain ⟨-, htags, hsame⟩ := hdid.kept
    refine ⟨fun r hr => ?_, fun ht => ?_⟩
    · rw [htags]
      rw [hsame] at hr
      exact hc.shared r hr
    · exact (hc.each p (hdid.article_eq.symm.trans ht)).own hc.shared hdid
  · -- the others
    intro c p a t w q hc _ hstep _ hq
    have hdid := step_did hstep
    obtain ⟨harticles, htags, -⟩ := hdid.kept
    refine (hc.each q hq).mono (fun x hx => ?_) (fun _ _ tag _ hx => ?_) fun tag hin => hdid.links hin
    · rw [harticles]
      exact hx
    · rw [htags]
      exact hx
  · exact fun _ _ _ _ _ _ _ _ _ _ => trivial
  · intro c e w hc hspares houtside
    obtain ⟨hrules, hall⟩ := backed_outside hspares houtside hc.shared
    exact ⟨hrules, fun p hp => hall p hp (hc.each p hp)⟩
  · refine ⟨hrules, fun p _ => .of_none ?_, fun _ _ _ => trivial⟩
    rw [(hfresh p).1]
    rfl

/-- The chain goes over its tags. -/
def Phase.inLoop : Phase → Bool
  | .assign _ | .create _ _ | .again _ _ => true
  | _ => false

/-- **A race for a row does not end a chain.**  However chains and others interleave, a
chain whose insert was refused finds the row at its second look-up, and no step of a chain
that goes over its tags ends in an error. -/
theorem get_or_create_survives_races (hfresh : Fresh c₀) (hrules : c₀.shared.RulesRefer)
    (h : Reach (next k pg) (Spares article) c₀ c) (hp : (c.loc p).article = article) :
    (∀ tag todo, (c.loc p).phase = .again tag todo → (article, tag) ∈ c.shared.links) ∧
      ((c.loc p).phase.inLoop = true → ∀ a c', next k pg (.proc p a) c = some c' →
        (c'.loc p).phase ≠ .failed) := by
  have hback := backed_of_reach hfresh hrules h hp
  refine ⟨fun tag todo hphase => hp ▸ hback.again tag todo hphase, fun hloop a c' hnext => ?_⟩
  obtain ⟨t, w, hstep, rfl⟩ := Config.next_proc.mp hnext
  simp only [Function.update_self]
  intro hfailed
  cases step_did hstep with
  | lost tag todo hphase hno => exact hno (hback.again tag todo hphase)
  | missing hphase | unread _ _ hphase | refused _ _ hphase =>
    rw [hphase] at hloop
    cases hloop
  | _ => cases hfailed

/-! ### The fan-out -/

/-- The chain is not dead. -/
def Survives (p : ι) (c : Chains ι) (_ : Move ι Action Outside) : Prop :=
  ∀ tagged, (c.loc p).phase ≠ .died tagged

/-- What is left of the ids that a fan-out has found. -/
def Owes (ids : List ℕ) (t : Task) (w : World) : Prop :=
  ∀ sub ∈ ids, (sub, t.article) ∈ w.queued ∨
    ∃ rest, t.phase = .publish rest ∧ sub ∈ rest

/-- Queued tasks stay. -/
theorem Did.queued (h : Did k pg t w t' w') {x : ℕ × ℕ} (hx : x ∈ w.queued) : x ∈ w'.queued := by
  cases h with
  | published => exact List.mem_cons_of_mem _ hx
  | created => exact hx
  | got | missing | unread | loaded | tagged | found | unfound | lost | raised | selected | finished
  | refused | died | resumed | restarted => exact hx

theorem queued_outside {e : Outside} (h : outside e w = some w') : w'.queued = w.queued := by
  cases e with
  | attach =>
    obtain ⟨-, -, -, rfl⟩ := insert_eq_some.mp h
    rfl
  | createTag =>
    rw [outside] at h
    split at h
    · cases h
    · cases h
      rfl
  | detach | deleteTag | write | setRules | setFeeds | setSubs =>
    cases h
    rfl

/-- The fan-out queues one after the other, unless the broker refuses one. -/
theorem Owes.step {ids : List ℕ} (h : Owes ids t w) (hdid : Did k pg t w t' w')
    (hlive : ∀ tagged, t'.phase ≠ .died tagged) : t'.phase = .failed ∨ Owes ids t' w' := by
  by_cases hfailed : t'.phase = .failed
  · exact .inl hfailed
  refine .inr fun sub hsub => ?_
  rw [hdid.article_eq]
  rcases h sub hsub with hin | ⟨rest, hphase, hin⟩
  · exact .inl (hdid.queued hin)
  · cases hdid with
    | finished hphase' =>
      rw [hphase] at hphase'
      cases hphase'
      cases hin
    | published x ids' hphase' =>
      rw [hphase] at hphase'
      cases hphase'
      rcases List.mem_cons.mp hin with rfl | hin
      · exact .inl List.mem_cons_self
      · exact .inr ⟨ids', rfl, hin⟩
    | died => exact absurd rfl (hlive _)
    | missing | unread | lost | refused => exact absurd rfl hfailed
    | found x todo hphase' =>
      rw [hphase] at hphase'
      rcases hphase' with hphase' | hphase' <;> cases hphase'
    | got _ hphase' | loaded _ _ _ hphase' | tagged hphase' | unfound _ _ hphase'
    | created _ _ hphase' | raised _ _ hphase' | selected _ hphase' | resumed hphase'
    | restarted hphase' =>
      rw [hphase] at hphase'
      cases hphase'

/-- A chain that failed stays as it is. -/
theorem Did.not_failed (h : Did k pg t w t' w') : t.phase ≠ .failed := by
  intro hfailed
  cases h with
  | found _ _ hphase =>
    rw [hfailed] at hphase
    rcases hphase with hphase | hphase <;> cases hphase
  | died hlive =>
    rw [hfailed] at hlive
    cases hlive
  | got _ hphase | missing hphase | unread _ _ hphase | loaded _ _ _ hphase | tagged hphase
  | unfound _ _ hphase | lost _ _ hphase | created _ _ hphase | raised _ _ hphase
  | selected _ hphase | finished hphase | published _ _ hphase | refused _ _ hphase
  | resumed hphase | restarted hphase =>
    rw [hfailed] at hphase
    cases hphase

theorem article_of_reach {ok : Chains ι → Move ι Action Outside → Prop}
    (h : Reach (next k pg) ok c₁ c₂) (p : ι) : (c₂.loc p).article = (c₁.loc p).article := by
  refine h.invariant (I := fun c => (c.loc p).article = (c₁.loc p).article) rfl ?_
  intro c m c' hc _ hnext
  cases m with
  | proc q a =>
    obtain ⟨t, w, hstep, rfl⟩ := Config.next_proc.mp hnext
    by_cases hq : p = q
    · subst hq
      simp only [Function.update_self]
      exact (step_did hstep).article_eq.trans hc
    · simpa only [Function.update_of_ne hq] using hc
  | env e =>
    obtain ⟨w, -, rfl⟩ := Config.next_env.mp hnext
    exact hc

/-- A fan-out that is not killed queues what it has found, unless it fails. -/
theorem owes_of_reach {ids : List ℕ} (howes : Owes ids (c₁.loc p) c₁.shared)
    (h : Reach (next k pg) (Survives p) c₁ c₂)
    (hlive : ∀ tagged, (c₂.loc p).phase ≠ .died tagged) :
    (c₂.loc p).phase = .failed ∨ Owes ids (c₂.loc p) c₂.shared := by
  refine h.invariant (I := fun c => (∀ tagged, (c.loc p).phase ≠ .died tagged) →
    (c.loc p).phase = .failed ∨ Owes ids (c.loc p) c.shared) (fun _ => .inr howes) ?_ hlive
  intro c m c' hc hok hnext hlive'
  cases m with
  | proc q a =>
    obtain ⟨t, w, hstep, rfl⟩ := Config.next_proc.mp hnext
    have hdid := step_did hstep
    by_cases hq : p = q
    · subst hq
      simp only [Function.update_self] at hlive' ⊢
      exact ((hc hok).resolve_left hdid.not_failed).step hdid hlive'
    · simp only [Function.update_of_ne hq]
      exact (hc hok).imp_right fun howes i hi => (howes i hi).imp_left hdid.queued
  | env e =>
    obtain ⟨w, hw, rfl⟩ := Config.next_env.mp hnext
    refine (hc hok).imp_right fun howes i hi => (howes i hi).imp_left fun hqueued => ?_
    rw [queued_outside hw]
    exact hqueued

/-- The subscriptions that the fan-out of an article finds. -/
theorem mem_instantMatches {article tag : ℕ} {sub : Subscription} {a : Article}
    (hsub : sub ∈ w.subs) (hactive : sub.isActive = true) (hinstant : sub.interval = .instant)
    (hlink : (article, tag) ∈ w.links) (hwanted : tag ∈ sub.tagIds) (ha : a ∈ w.articles)
    (hid : a.id = article) (hlive : a.isDeleted = false) (hfeed : (a.feedId, false) ∈ w.feeds)
    (hfilter : sub.feeds = [] ∨ a.feedId ∈ sub.feeds) (hmatch : pg.tsMatch a sub.q = true) :
    sub.id ∈ instantMatches pg w article := by
  have hwants : wanted pg ⟨w.feeds, w.links⟩ sub a = true := by
    simp only [wanted, Bool.and_eq_true, Bool.or_eq_true, List.any_eq_true, List.contains_iff_mem,
      List.isEmpty_iff, Bool.not_eq_true', beq_iff_eq]
    exact ⟨⟨⟨⟨⟨_, hfeed, rfl, rfl⟩, hlive⟩, hmatch⟩, hfilter⟩,
      .inr ⟨_, hlink, hid.symm, hwanted⟩⟩
  refine List.mem_map.mpr ⟨sub, List.mem_filter.mpr ⟨hsub, ?_⟩, rfl⟩
  simp only [Bool.and_eq_true, List.any_eq_true, beq_iff_eq]
  exact ⟨⟨hactive, hinstant⟩, a, ha, hid, hwants⟩

/-- **The fan-out comes behind the tags.**  A subscription to a tag of a rule that applied,
active when the fan-out reads it and else wanting the article, is queued once the fan-out is
over, whatever chains, staff and owners do meanwhile. -/
theorem tagged_subscription_is_queued (hfresh : Fresh c₀)
    (h : Reach (next k pg) (Keeps article) c₀ c) (hp : (c.loc p).article = article)
    (hphase : (c.loc p).phase = .fanout) {ids : List ℕ}
    (hselect : next k pg (.proc p (.select ids)) c = some c₁)
    (hrest : Reach (next k pg) (Survives p) c₁ c₂) (hdone : (c₂.loc p).phase = .done)
    {sub : Subscription} (hsub : sub ∈ c.shared.subs) (hactive : sub.isActive = true)
    (hinstant : sub.interval = .instant) {tag : ℕ} (htag : tag ∈ (c.loc p).matched)
    (hwanted : tag ∈ sub.tagIds) {a : Article} (ha : a ∈ c.shared.articles) (hid : a.id = article)
    (hlive : a.isDeleted = false) (hfeed : (a.feedId, false) ∈ c.shared.feeds)
    (hfilter : sub.feeds = [] ∨ a.feedId ∈ sub.feeds) (hmatch : pg.tsMatch a sub.q = true) :
    (sub.id, article) ∈ c₂.shared.queued := by
  have hset := (meets_of_reach hfresh h).each p hp
  have hlink : (article, tag) ∈ c.shared.links :=
    (hset.matched [] (by rw [hphase]; rfl) tag htag).resolve_right List.not_mem_nil
  have hin := mem_instantMatches hsub hactive hinstant hlink hwanted ha hid hlive hfeed hfilter
    hmatch
  obtain ⟨t, w, hstep, rfl⟩ := Config.next_proc.mp hselect
  simp only [step.eq_def, hphase] at hstep
  split at hstep
  · rename_i hperm
    cases hstep
    rw [hp] at hperm
    have hloc : Function.update c.loc p ((c.loc p).goto (.publish ids)) p =
        (c.loc p).goto (.publish ids) := Function.update_self ..
    have hpending : Owes ids (Function.update c.loc p ((c.loc p).goto (.publish ids)) p) c.shared :=
      fun i hi => .inr ⟨ids, congrArg Task.phase hloc, hi⟩
    have howes : Owes ids (c₂.loc p) c₂.shared := by
      refine (owes_of_reach hpending hrest fun tagged hdied => ?_).resolve_left fun hfailed => ?_
      · rw [hdone] at hdied
        cases hdied
      · rw [hdone] at hfailed
        cases hfailed
    have harticle : (c₂.loc p).article = article := by
      rw [article_of_reach hrest p]
      show (Function.update c.loc p _ p).article = article
      rw [hloc]
      exact hp
    rcases howes sub.id (hperm.mem_iff.mpr hin) with hqueued | ⟨rest, hpublish, -⟩
    · rwa [harticle] at hqueued
    · rw [hdone] at hpublish
      cases hpublish
  · cases hstep

/-! ### Two chains -/

/-- Texts without markup. -/
def plainTexts : Tools where
  toHtml := bareHtml
  unicode := basicUnicode
  detect _ := none
  sha256 _ := []

/-- An article about Lean. -/
def leanNews : Article where
  id := 1
  feedId := 1
  guid := "g".toList
  canonicalUrl := "https://a.example/post".toList
  url := "https://a.example/post".toList
  title := "Lean 4".toList
  summary := []
  body := []
  author := none
  language := "english".toList
  contentHash := "h".toList
  publishedAt := none
  fetchedAt := 0
  lastSeenAt := 0
  isDeleted := false
  createdAt := 0
  processedAt := some 0

/-- The rule that tags it. -/
def leanRule : TagRule := ⟨1, ["lean".toList], .any, some "english".toList, 7, true⟩

/-- A subscription to the tag. -/
def tagSubscription : Subscription :=
  { mailRow 3 1 "me@example.org".toList with tagIds := [7] }

/-- The chain of the article was queued twice. -/
def twoChains : Chains Bool where
  shared := ⟨[leanNews], [7], [leanRule], [], [tagSubscription], [(1, false)], []⟩
  loc _ := ⟨1, [], [], .start⟩

/-- Both want to attach the tag, and the second one is told that it is there. -/
def bothAssign : List (Move Bool Action Outside) :=
  [.proc true .get, .proc false .get, .proc true (.load [leanRule]),
    .proc false (.load [leanRule]), .proc true .lookup, .proc false .lookup, .proc true .insert,
    .proc false .insert, .proc false .lookup, .proc false .lookup]

theorem twoChains_fresh : Fresh twoChains := fun _ => ⟨rfl, rfl, rfl⟩

theorem keeps_of_proc {ms : List (Move Bool Action Outside)}
    (h : ∀ m ∈ ms, ∃ p a, m = .proc p a) (c : Chains Bool) :
    Along (next plainTexts everything) (Keeps 1) ms c :=
  along_of_forall (fun m hm c => by
    obtain ⟨p, a, rfl⟩ := h m hm
    exact trivial) c

theorem bothAssign_proc : ∀ m ∈ bothAssign, ∃ p a, m = .proc p a := by
  simp [bothAssign]

/-- The insert of the second one is refused. -/
theorem get_or_create_survives_races_two :
    ∃ c, Reach (next plainTexts everything) (Spares 1) twoChains c ∧
      (c.loc false).phase = .again 7 [] ∧ (1, 7) ∈ c.shared.links := by
  have hrun : (exec (next plainTexts everything) (bothAssign.take 8) twoChains).map
      (fun c => ((c.loc false).article, (c.loc false).phase)) = some (1, .again 7 []) := by decide
  have hspares : Along (next plainTexts everything) (Spares 1) (bothAssign.take 8) twoChains :=
    along_of_forall (fun m hm c => by
      obtain ⟨p, a, rfl⟩ := bothAssign_proc m (List.mem_of_mem_take hm)
      exact ⟨trivial, trivial⟩) _
  obtain ⟨c, hreach, htask⟩ := Reach.exists_of_exec (Spares 1) hrun hspares
  simp only [Prod.mk.injEq] at htask
  have hrules : twoChains.shared.RulesRefer := by
    rw [World.RulesRefer]
    decide
  exact ⟨c, hreach, htask.2,
    (get_or_create_survives_races twoChains_fresh hrules hreach htask.1).1 7 [] htask.2⟩

theorem rule_tags_are_assigned_once_two :
    ∃ c, Reach (next plainTexts everything) (Keeps 1) twoChains c ∧
      (c.loc true).assigned = [7] ∧ (c.loc true).assigned.Nodup ∧ (1, 7) ∈ c.shared.links := by
  have hrun : (exec (next plainTexts everything) bothAssign twoChains).map
      (fun c => ((c.loc true).article, (c.loc true).assigned)) = some (1, [7]) := by decide
  obtain ⟨c, hreach, htask⟩ :=
    Reach.exists_of_exec (Keeps 1) hrun (keeps_of_proc bothAssign_proc _)
  simp only [Prod.mk.injEq] at htask
  obtain ⟨hnodup, hlinks, -⟩ := rule_tags_are_assigned_once twoChains_fresh hreach htask.1
  refine ⟨c, hreach, htask.2, hnodup, (hlinks 7 ?_).1⟩
  rw [htask.2]
  exact List.mem_singleton_self 7

/-- The tables that the fan-out reads. -/
def FanoutReads (c : Chains Bool) : Prop :=
  c.shared.subs = [tagSubscription] ∧ c.shared.articles = [leanNews] ∧
    c.shared.feeds = [(1, false)]

instance (c : Chains Bool) : Decidable (FanoutReads c) :=
  inferInstanceAs (Decidable (_ ∧ _ ∧ _))

/-- The phases of the fan-out of the second chain. -/
def fanoutPhases (c : Chains Bool) : Option (Phase × Phase × Phase) :=
  (next plainTexts everything (.proc false (.select [3])) c).bind fun c₁ =>
    (next plainTexts everything (.proc false (.publish false)) c₁).bind fun c₂ =>
      (next plainTexts everything (.proc false (.publish false)) c₂).map fun c₃ =>
        ((c₁.loc false).phase, (c₂.loc false).phase, (c₃.loc false).phase)

theorem tagged_subscription_is_queued_two :
    ∃ c : Chains Bool, (c.loc false).phase = .done ∧ (3, 1) ∈ c.shared.queued := by
  have hrun : (exec (next plainTexts everything) bothAssign twoChains).map
      (fun c => (c.loc false, decide (FanoutReads c), fanoutPhases c)) =
      some (⟨1, [7], [], .fanout⟩, true, some (.publish [3], .publish [], .done)) := by
    decide
  obtain ⟨c, hreach, hfacts⟩ :=
    Reach.exists_of_exec (Keeps 1) hrun (keeps_of_proc bothAssign_proc _)
  simp only [Prod.mk.injEq] at hfacts
  obtain ⟨htask, hreads, hphases⟩ := hfacts
  obtain ⟨hsubs, harticles, hfeeds⟩ := of_decide_eq_true hreads
  obtain ⟨c₁, hselect, hphases⟩ := Option.bind_eq_some_iff.mp hphases
  obtain ⟨c₂, hpublish, hphases⟩ := Option.bind_eq_some_iff.mp hphases
  obtain ⟨c₃, hfinish, hphases⟩ := Option.map_eq_some_iff.mp hphases
  simp only [Prod.mk.injEq] at hphases
  obtain ⟨h₁, h₂, h₃⟩ := hphases
  have hrest : Reach (next plainTexts everything) (Survives false) c₁ c₃ :=
    .step (.step .refl (by simp [Survives, h₁]) hpublish) (by simp [Survives, h₂]) hfinish
  refine ⟨c₃, h₃, ?_⟩
  have hsub : tagSubscription ∈ c.shared.subs := by
    rw [hsubs]
    exact List.mem_singleton_self _
  have harticle : leanNews ∈ c.shared.articles := by
    rw [harticles]
    exact List.mem_singleton_self _
  have hfeed : (1, false) ∈ c.shared.feeds := by
    rw [hfeeds]
    exact List.mem_singleton_self _
  exact tagged_subscription_is_queued twoChains_fresh hreach (by rw [htask]) (by rw [htask])
    hselect hrest h₃ hsub rfl rfl (by rw [htask]; exact List.mem_singleton_self 7)
    (List.mem_singleton_self 7) harticle rfl rfl hfeed (.inl rfl) rfl

end Tagging
