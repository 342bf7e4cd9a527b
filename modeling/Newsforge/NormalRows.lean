/-
Every row of the article table is normalized, whatever writes it.

The runs are those of `Newsforge.Cleanup`: `process_article` tasks and cleanups,
interleaved statement by statement, workers killed and messages redelivered.

* `Normal` — what `normalize_entry` promises of an entry; `normal_of_normalizeEntry`;
* `columns` — a row, read as an entry;
* `normal_insert`, `normal_edit` — the two statements that write such columns.

Main result: `rows_are_normalized`.  A row that was edited has columns of two entries, the
guid of one and the text of another, and still they fit together.
-/
import Newsforge.Cleanup
import Newsforge.ContentHash

open PyText Tables Runs

namespace Normalizer

open ArticleTable

variable {k : Tools}

/-! ### Normal entries -/

/-- The text search configurations that `detect_language` knows. -/
def languages : List Text := "simple".toList :: supportedLangs.map Prod.snd

/-- What `normalize_entry` promises. -/
structure Normal (k : Tools) (e : NormalizedEntry) : Prop where
  url : ∃ link, checkLink k.unicode link = .ok e.url
  canonicalUrl : canonicalizeUrl k.unicode e.url = .ok e.canonicalUrl
  title : ∃ value, plainText k.toHtml value maxTitleChars = .ok e.title
  summary : ∃ html, sanitizeHtml k.toHtml html = .ok e.summary
  body : ∃ html, sanitizeHtml k.toHtml html = .ok e.body
  author : ∀ a ∈ e.author, a ≠ [] ∧ ∃ value, plainText k.toHtml value maxAuthorChars = .ok a
  language : e.language ∈ languages
  contentHash : e.contentHash = contentHash k e.canonicalUrl e.title (orElse e.body e.summary)
  guid : ∃ guid, e.guid = normalizeGuid k guid

/-- A title fits its column, and has no white space but blanks. -/
theorem Normal.title_chars {e : NormalizedEntry} (h : Normal k e) :
    e.title.length ≤ maxTitleChars ∧ ∀ x ∈ e.title, isSpace x = true → x = ' ' := by
  obtain ⟨value, hvalue⟩ := h.title
  exact ⟨length_plainText_le hvalue, fun x hx => space_of_mem_plainText hvalue hx⟩

theorem detectLanguage_mem (text : Text) : detectLanguage k text ∈ languages := by
  simp only [detectLanguage]
  split
  · exact List.mem_cons_self
  · split
    · exact List.mem_cons_self
    · rename_i code _
      cases hlookup : supportedLangs.lookup code with
      | none => exact List.mem_cons_self
      | some lang =>
        obtain ⟨l₁, l₂, heq, -⟩ := List.lookup_eq_some_iff.mp hlookup
        have hmem : (code, lang) ∈ supportedLangs := by
          rw [heq]
          exact List.mem_append_right _ List.mem_cons_self
        exact List.mem_cons_of_mem _ (List.mem_map_of_mem hmem)

theorem normal_of_normalizeEntry {now : Time} {raw : RawEntry} {e : NormalizedEntry}
    (h : normalizeEntry k now raw = .ok e) : Normal k e := by
  have hmade := normalizeEntry_eq_ok_iff.mp h
  obtain ⟨author, hauthor, heq⟩ := hmade.author
  obtain ⟨visible, -, hlanguage⟩ := hmade.language
  refine ⟨⟨_, hmade.url⟩, hmade.canonicalUrl, ⟨_, hmade.title⟩, ⟨_, hmade.summary⟩,
    ⟨_, hmade.body⟩, ?_, ?_, hmade.contentHash, ⟨_, hmade.guid⟩⟩
  · intro a ha
    rw [heq] at ha
    split at ha
    · cases ha
    · rename_i hne
      cases ha
      exact ⟨fun hnil => hne (by rw [hnil]; rfl), _, hauthor⟩
  · rw [hlanguage]
    dsimp only
    split
    · rename_i hfallback
      exact List.mem_cons_of_mem _ hfallback.2
    · exact detectLanguage_mem _

end Normalizer

namespace ArticleCleanup

open ArticleTable Normalizer
open ProcessArticle (World)

variable {ι : Type*} [DecidableEq ι] {k : Tools}

/-! ### Rows -/

/-- A row, read as an entry. -/
def columns (r : Article) : NormalizedEntry where
  canonicalUrl := r.canonicalUrl
  url := r.url
  title := r.title
  summary := r.summary
  body := r.body
  author := r.author
  language := r.language
  contentHash := r.contentHash
  guid := r.guid
  publishedAt := r.publishedAt

theorem normal_insert {e : NormalizedEntry} (h : Normal k e) (feedId : ℕ) (now : Time) (id : ℕ) :
    Normal k (columns (newArticle feedId e now id)) :=
  ⟨h.url, h.canonicalUrl, h.title, h.summary, h.body, h.author, h.language, h.contentHash, h.guid⟩

/-- An edit leaves the guid, and takes everything else from the new entry. -/
theorem normal_edit {e : NormalizedEntry} (h : Normal k e) {r : Article}
    (hr : Normal k (columns r)) (now : Time) : Normal k (columns (r.edit e now)) :=
  ⟨h.url, h.canonicalUrl, h.title, h.summary, h.body, h.author, h.language, h.contentHash, hr.guid⟩

/-- Every row is normal. -/
def AllNormal (k : Tools) (rows : List Article) : Prop := ∀ r ∈ rows, Normal k (columns r)

/-- The entry of the message of a task is a normalized one. -/
def FromEntry (k : Tools) : Proc → Prop
  | .article t => ∃ now raw, normalizeEntry k now raw = .ok t.entry
  | .cleanup _ => True

theorem AllNormal.updateWhere {rows : List Article} (h : AllNormal k rows) (p : Article → Bool)
    {f : Article → Article} (hf : ∀ r, Normal k (columns r) → Normal k (columns (f r))) :
    AllNormal k (updateWhere p f rows) := by
  intro r' hr'
  obtain ⟨r, hr, rfl⟩ := mem_updateWhere.mp hr'
  split
  · exact hf r (h r hr)
  · exact h r hr

theorem allNormal_of_did {a : Act} {p p' : Proc} {w w' : World} (h : AllNormal k w.db.rows)
    (hp : FromEntry k p) (hdid : Did a p w p' w') : AllNormal k w'.db.rows := by
  cases hdid with
  | @article a t w t' w' heffect =>
    obtain ⟨now, raw, hentry⟩ := hp
    have hentry := normal_of_normalizeEntry hentry
    cases heffect with
    | inserted now hphase hnew =>
      intro r hr
      rcases List.mem_append.mp hr with hr | hr
      · exact h r hr
      · rw [List.mem_singleton.mp hr]
        exact normal_insert hentry _ _ _
    | edited now r hphase hr he => exact h.updateWhere _ fun r hr => normal_edit hentry hr now
    | touched => exact h.updateWhere _ fun _ hr => hr
    | claimed => exact h.updateWhere _ fun _ hr => hr
    | released => exact h.updateWhere _ fun _ hr => hr
    | conflicted | unedited | lost | unclaimed | queued | raised | acked | died | redelivered =>
      exact h
  | updated => exact h.updateWhere _ fun _ hr => hr
  | started | entered | timedOut | selected | killed => exact h

/-- A task keeps its message. -/
theorem fromEntry_of_did {a : Act} {p p' : Proc} {w w' : World} (hp : FromEntry k p)
    (hdid : Did a p w p' w') : FromEntry k p' := by
  cases hdid with
  | article heffect => cases heffect <;> exact hp
  | started | entered | timedOut | selected | updated | killed => trivial

/-- **Every row is normalized**: its URL is one that `check_link` let through, its canonical
URL is that of its own URL, its title and its texts went through the sanitizer, its language is one that
PostgreSQL knows, and its hash is that of its own columns. -/
theorem rows_are_normalized {c₀ c : Procs ι} (hwf : WellFormed c₀.shared.db)
    (hrows : AllNormal k c₀.shared.db.rows) (hprocs : ∀ p, FromEntry k (c₀.loc p))
    (h : Reach next anyMove c₀ c) : AllNormal k c.shared.db.rows := by
  have hinv : WellFormed c.shared.db ∧ AllNormal k c.shared.db.rows ∧
      ∀ p, FromEntry k (c.loc p) := by
    refine h.invariant (I := fun c => WellFormed c.shared.db ∧ AllNormal k c.shared.db.rows ∧
      ∀ p, FromEntry k (c.loc p)) ⟨hwf, hrows, hprocs⟩ ?_
    intro c m c' ⟨hwf, hrows, hprocs⟩ _ hnext
    cases m with
    | proc p a =>
      obtain ⟨q, w, hstep, rfl⟩ := Config.next_proc.mp hnext
      have hdid := step_did hwf hstep
      refine ⟨hdid.wellFormed hwf, allNormal_of_did hrows (hprocs p) hdid, fun p' => ?_⟩
      show FromEntry k (Function.update c.loc p q p')
      by_cases hp : p' = p
      · rw [hp, Function.update_self]
        exact fromEntry_of_did (hprocs p) hdid
      · rw [Function.update_of_ne hp]
        exact hprocs p'
    | env e => cases e
  exact hinv.2.1

/-- A task with one entry, and a cleanup of what is older than a day. -/
def sampleProcs : Procs Bool where
  shared := ⟨Db.empty, []⟩
  loc
    | true => .article ⟨1, sampleEntry "本文".toList, .insert⟩
    | false => .cleanup ⟨1, 0, 0, .start⟩

/-- The article comes in, and two days later it is hidden. -/
def sampleMoves : List (Move Bool Act Empty) :=
  [.proc true (.article (.insert 0)), .proc false (.cleanup (.start (2 * 86400 * 1000000) 0)),
    .proc false (.cleanup (.check 1)), .proc false (.cleanup (.select [1])),
    .proc true (.article (.claim 5)), .proc false (.cleanup .update)]

/-- What is then in the table. -/
def sampleRow : Article :=
  { newArticle 1 (sampleEntry "本文".toList) 0 1 with processedAt := some 5, isDeleted := true }

theorem rows_are_normalized_sample :
    ∃ c, Reach next anyMove sampleProcs c ∧ c.shared.db.rows = [sampleRow] ∧
      AllNormal sampleTools c.shared.db.rows := by
  have hrun : (exec next sampleMoves sampleProcs).map (fun c => c.shared.db.rows) =
      some [sampleRow] := by decide
  obtain ⟨c, hreach, hrows⟩ := Reach.exists_of_exec anyMove hrun (along_anyMove _ _)
  refine ⟨c, hreach, hrows, rows_are_normalized WellFormed.empty ?_ ?_ hreach⟩
  · exact fun r hr => absurd hr List.not_mem_nil
  · intro p
    cases p with
    | true => exact ⟨0, sampleRaw "Title".toList "本文".toList, by decide⟩
    | false => exact trivial

end ArticleCleanup
