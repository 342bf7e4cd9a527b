/-
The secret a subscription signs with, and the secret its owner was shown.

* `Numbered`, `Unused`, `Apart` — ids come from a sequence, so that no request
  writes over the row another one is about to insert;
* `LastIssued` — a stored secret is the one that was issued last;
* `KeepsSecrets` — an update that issues none finds the secret it loaded.

Main results: `last_issued_of_reach` (in runs whose updates find the secrets
they loaded) and `stale_update_restores_a_secret` (a stale `PATCH` of the name
puts a rotated secret back).
-/
import Newsforge.SubscriptionApi

open PyText Tables Runs

namespace SubscriptionApi

open SafeHttp Subscriptions Targets

/-! ### Ids -/

/-- The sequence is ahead of the rows and of the secrets that were issued. -/
structure Numbered (db : Db) : Prop where
  rows : ∀ r ∈ db.rows, r.id < db.nextId
  issued : ∀ e ∈ db.issued, e.1 < db.nextId

/-- The rows a request may write. -/
def Phase.ids : Phase → List ℕ
  | .checkTarget j | .countOthers j _ | .write j _ =>
    match j with
    | .create _ _ => []
    | .update copy _ => [copy.id]
  | .inserted row _ _ => [row.id]
  | .delete copy | .rotate copy => [copy.id]
  | .digest _ todo => todo.map Subscription.id
  | .received _ | .countOwned _ _ | .finished _ => []

/-- The row a request has inserted and not committed. -/
def Phase.pending : Phase → Option ℕ
  | .inserted row _ _ => some row.id
  | _ => none

/-- What a request holds about its ids, and about the row it has inserted. -/
structure Unused (l : Phase) (db : Db) : Prop where
  lt : ∀ i ∈ l.ids, i < db.nextId
  noRow : ∀ i, l.pending = some i → ∀ r ∈ db.rows, r.id ≠ i
  noSecret : ∀ i, l.pending = some i → ∀ e ∈ db.issued, e.1 ≠ i
  issued : ∀ row secret passed, l = .inserted row secret passed → row.webhookSecret = secret

/-- Nobody else writes a row that is not committed. -/
def Apart (l m : Phase) : Prop :=
  (∀ i, l.pending = some i → i ∉ m.ids) ∧ ∀ i, m.pending = some i → i ∉ l.ids

theorem Phase.mem_ids_of_pending {l : Phase} {i : ℕ} (h : l.pending = some i) : i ∈ l.ids := by
  cases l with
  | inserted row issued passed =>
    cases h
    exact List.mem_cons_self
  | _ => cases h

variable {s : Settings} {l l' : Phase} {db db' : Db}

/-- The ids of a table after a step. -/
theorem Effect.row_id (h : Effect s l db l' db') {r : Subscription} (hr : r ∈ db'.rows) :
    (∃ r₀ ∈ db.rows, r₀.id = r.id) ∨ r.id ∈ l.ids := by
  cases h with
  | committed row issued passed =>
    rcases List.mem_append.mp hr with hr | hr
    · exact .inl ⟨r, hr, rfl⟩
    · rw [List.mem_singleton] at hr
      exact .inr (hr ▸ List.mem_cons_self)
  | saved copy attrs passed key fresh hkey =>
    rcases mem_put hr with rfl | ⟨hr, -⟩
    · rw [Job.written_update_id]
      exact .inr List.mem_cons_self
    · exact .inl ⟨r, hr, rfl⟩
  | deleted copy => exact .inl ⟨r, (List.mem_filter.mp hr).1, rfl⟩
  | rotated copy key fresh hkey =>
    obtain ⟨r₀, hr₀, rfl⟩ := mem_updateWhere.mp hr
    refine .inl ⟨r₀, hr₀, ?_⟩
    split <;> rfl
  | digested now copy todo key hkey =>
    obtain ⟨r₀, hr₀, rfl⟩ := mem_updateWhere.mp hr
    refine .inl ⟨r₀, hr₀, ?_⟩
    split <;> rfl
  | ended | counting | counted | loaded | skipping | locking | checked | inserting | deleting
  | rotating | digesting => exact .inl ⟨r, hr, rfl⟩

theorem mem_issue {id : ℕ} {secret : Option Text} {issued : List (ℕ × Text)} {e : ℕ × Text}
    (h : e ∈ issue id secret issued) : e.1 = id ∨ e ∈ issued := by
  rw [issue] at h
  cases secret with
  | none => exact .inr h
  | some x =>
    rcases List.mem_cons.mp h with rfl | h
    · exact .inl rfl
    · exact .inr h

/-- A secret is issued for a row the request writes. -/
theorem Effect.issued_id (h : Effect s l db l' db') {e : ℕ × Text} (he : e ∈ db'.issued) :
    e ∈ db.issued ∨ e.1 ∈ l.ids := by
  cases h with
  | committed row issued passed =>
    rcases mem_issue he with hid | he
    · exact .inr (hid ▸ List.mem_cons_self)
    · exact .inl he
  | saved copy attrs passed key fresh hkey =>
    rcases mem_issue he with hid | he
    · exact .inr (hid ▸ List.mem_cons_self)
    · exact .inl he
  | rotated copy key fresh hkey =>
    rcases mem_issue he with hid | he
    · exact .inr (hid ▸ List.mem_cons_self)
    · exact .inl he
  | ended | counting | counted | loaded | skipping | locking | checked | inserting | deleting
  | deleted | rotating | digesting | digested => exact .inl he

/-- A request only gets ids from the table or from the sequence. -/
theorem Effect.ids (h : Effect s l db l' db') {i : ℕ} (hi : i ∈ l'.ids) :
    i ∈ l.ids ∨ (∃ r ∈ db.rows, r.id = i) ∨ i = db.nextId ∧ db'.nextId = db.nextId + 1 := by
  cases h with
  | loaded r copy attrs hcopy | deleting r copy hcopy | rotating r copy hcopy =>
    rw [Phase.ids, List.mem_singleton] at hi
    exact .inr (.inl ⟨copy, hcopy, hi.symm⟩)
  | skipping j hskip | locking j key hkey hne | checked j key hroom => exact .inl hi
  | inserting owner attrs passed key fresh hkey =>
    rw [Phase.ids, List.mem_singleton, Job.written_create_id] at hi
    exact .inr (.inr ⟨hi, rfl⟩)
  | digesting now =>
    obtain ⟨r, hr, rfl⟩ := List.mem_map.mp hi
    exact .inr (.inl ⟨r, (List.mem_filter.mp hr).1, rfl⟩)
  | digested now copy todo key hkey => exact .inl (List.mem_cons_of_mem _ hi)
  | ended | counting | counted | committed | saved | deleted | rotated => cases hi

/-- A row that is not committed has a new id. -/
theorem Effect.pending (h : Effect s l db l' db') {i : ℕ} (hi : l'.pending = some i) :
    i = db.nextId ∧ db'.rows = db.rows ∧ db'.issued = db.issued := by
  cases h with
  | inserting owner attrs passed key fresh hkey =>
    rw [Phase.pending, Job.written_create_id, Option.some_inj] at hi
    exact ⟨hi.symm, rfl, rfl⟩
  | ended | counting | counted | loaded | skipping | locking | checked | committed | saved
  | deleting | deleted | rotating | rotated | digesting | digested => cases hi

theorem Numbered.effect (hdb : Numbered db) (hl : Unused l db) (h : Effect s l db l' db') :
    Numbered db' := by
  refine ⟨fun r hr => ?_, fun e he => ?_⟩
  · refine Nat.lt_of_lt_of_le ?_ h.nextId_le
    rcases h.row_id hr with ⟨r₀, hr₀, hid⟩ | hid
    · exact hid ▸ hdb.rows r₀ hr₀
    · exact hl.lt _ hid
  · refine Nat.lt_of_lt_of_le ?_ h.nextId_le
    rcases h.issued_id he with he | hid
    · exact hdb.issued e he
    · exact hl.lt _ hid

/-- A new row is stored with the secret that is returned for it. -/
theorem written_create_secret (owner : ℕ) (attrs : Attrs) (id : ℕ) (key : Text) (fresh : Secret) :
    ((Job.create owner attrs).written id key fresh).1.webhookSecret =
      ((Job.create owner attrs).written id key fresh).2 := by
  rcases ensureSecret_cases fresh { (Job.create owner attrs).row id with targetKey := key } with
    ⟨-, h⟩ | ⟨-, h⟩
  · rw [Job.written, h]
  · rw [Job.written, h]
    rfl

theorem Unused.effect_own (hdb : Numbered db) (hl : Unused l db) (h : Effect s l db l' db') :
    Unused l' db' := by
  refine ⟨fun i hi => ?_, fun i hi r hr => ?_, fun i hi e he => ?_, fun row secret passed heq => ?_⟩
  · -- an id a request had, of a row it loaded, or from the sequence
    rcases h.ids hi with hi | ⟨r, hr, rfl⟩ | ⟨rfl, hnext⟩
    · exact Nat.lt_of_lt_of_le (hl.lt i hi) h.nextId_le
    · exact Nat.lt_of_lt_of_le (hdb.rows r hr) h.nextId_le
    · rw [hnext]
      exact Nat.lt_succ_self _
  · obtain ⟨rfl, hrows, -⟩ := h.pending hi
    rw [hrows] at hr
    exact Nat.ne_of_lt (hdb.rows r hr)
  · obtain ⟨rfl, -, hissued⟩ := h.pending hi
    rw [hissued] at he
    exact Nat.ne_of_lt (hdb.issued e he)
  · cases h with
    | inserting owner attrs passed' key fresh hkey =>
      cases heq
      exact written_create_secret _ _ _ _ _
    | ended | counting | counted | loaded | skipping | locking | checked | committed | saved
    | deleting | deleted | rotating | rotated | digesting | digested => cases heq

theorem Unused.effect_other {m : Phase} (hm : Unused m db) (hlm : Apart l m)
    (h : Effect s l db l' db') : Unused m db' := by
  refine ⟨fun i hi => Nat.lt_of_lt_of_le (hm.lt i hi) h.nextId_le, fun i hi r hr => ?_,
    fun i hi e he => ?_, hm.issued⟩
  · rintro rfl
    rcases h.row_id hr with ⟨r₀, hr₀, hid⟩ | hid
    · exact hm.noRow _ hi r₀ hr₀ hid
    · exact hlm.2 _ hi hid
  · rintro rfl
    rcases h.issued_id he with he | hid
    · exact hm.noSecret _ hi e he rfl
    · exact hlm.2 _ hi hid

theorem Apart.effect {m : Phase} (hlm : Apart l m) (hm : Unused m db) (h : Effect s l db l' db') :
    Apart l' m := by
  refine ⟨fun i hi him => ?_, fun i hi hil => ?_⟩
  · obtain ⟨rfl, -, -⟩ := h.pending hi
    exact Nat.lt_irrefl _ (hm.lt _ him)
  · rcases h.ids hil with hil | ⟨r, hr, hid⟩ | ⟨hid, -⟩
    · exact hlm.2 i hi hil
    · exact hm.noRow i hi r hr hid
    · exact Nat.ne_of_lt (hm.lt i (Phase.mem_ids_of_pending hi)) hid

/-! ### Secrets -/

/-- Every stored secret is the one that was returned last. -/
def LastIssued (db : Db) : Prop := ∀ r ∈ db.rows, r.webhookSecret = db.issued.lookup r.id

/-- An update that issues no secret finds the row with the secret it loaded. -/
def KeepsSecrets : Phase → Db → Prop
  | .write (.update copy attrs) _, db => ¬ NeedsSecret (attrs.patch copy) →
    ∃ r ∈ db.rows, r.id = copy.id ∧ r.webhookSecret = copy.webhookSecret
  | _, _ => True

theorem lookup_issue_self (id : ℕ) (x : Text) (issued : List (ℕ × Text)) :
    (issue id (some x) issued).lookup id = some x :=
  List.lookup_cons_self

theorem lookup_issue_of_ne {id i : ℕ} (hne : i ≠ id) (secret : Option Text)
    (issued : List (ℕ × Text)) : (issue id secret issued).lookup i = issued.lookup i := by
  cases secret with
  | none => rfl
  | some x =>
    show List.lookup i ((id, x) :: issued) = _
    rw [List.lookup_cons, beq_eq_false_iff_ne.mpr hne]

theorem lookup_of_unused {id : ℕ} {issued : List (ℕ × Text)} (h : ∀ e ∈ issued, e.1 ≠ id) :
    issued.lookup id = none := by
  rw [List.lookup_eq_none_iff]
  intro e he
  exact bne_iff_ne.mpr (h e he).symm

/-- An update that needs a secret stores the one it returns; another one stores
the secret it loaded, and returns none. -/
theorem written_update_secret (copy : Subscription) (attrs : Attrs) (id : ℕ) (key : Text)
    (fresh : Secret) :
    (NeedsSecret (attrs.patch copy) ∧
      ((Job.update copy attrs).written id key fresh).1.webhookSecret = some fresh.1 ∧
      ((Job.update copy attrs).written id key fresh).2 = some fresh.1) ∨
    (¬ NeedsSecret (attrs.patch copy) ∧
      ((Job.update copy attrs).written id key fresh).1.webhookSecret = copy.webhookSecret ∧
      ((Job.update copy attrs).written id key fresh).2 = none) := by
  rcases ensureSecret_cases fresh { (Job.update copy attrs).row id with targetKey := key } with
    ⟨hn, h⟩ | ⟨hn, h⟩
  · rw [Job.written, h]
    exact .inl ⟨hn, rfl, rfl⟩
  · rw [Job.written, h]
    exact .inr ⟨hn, rfl, rfl⟩

/-- One step keeps the stored secrets up to date. -/
theorem LastIssued.effect (hlast : LastIssued db) (hl : Unused l db)
    (hkeeps : KeepsSecrets l db ∨ db' = db) (h : Effect s l db l' db') : LastIssued db' := by
  rcases hkeeps with hkeeps | hsame
  swap
  · rw [hsame]
    exact hlast
  cases h with
  | committed row issued passed =>
    intro r hr
    rcases List.mem_append.mp hr with hr | hr
    · -- no stored row has the id of the new one
      have hne : r.id ≠ row.id := hl.noRow row.id rfl r hr
      rw [hlast r hr]
      exact (lookup_issue_of_ne hne issued db.issued).symm
    · rw [List.mem_singleton] at hr
      subst hr
      show r.webhookSecret = (issue r.id issued db.issued).lookup r.id
      rw [hl.issued r issued passed rfl]
      cases issued with
      | none => exact (lookup_of_unused (hl.noSecret r.id rfl)).symm
      | some x => exact (lookup_issue_self r.id x db.issued).symm
  | saved copy attrs passed key fresh hkey =>
    intro r hr
    rcases mem_put hr with rfl | ⟨hr, hne⟩
    · rw [Job.written_update_id]
      rcases written_update_secret copy attrs copy.id key fresh with
        ⟨-, hstored, hissued⟩ | ⟨hn, hstored, hissued⟩
      · rw [hstored, hissued]
        exact (lookup_issue_self copy.id fresh.1 db.issued).symm
      · -- it stores the secret of its copy, which is the one in the table
        obtain ⟨r, hr, hid, hsecret⟩ := hkeeps hn
        rw [hstored, hissued, ← hsecret, hlast r hr, hid]
        rfl
    · rw [Job.written_update_id] at hne
      rw [hlast r hr]
      exact (lookup_issue_of_ne hne _ db.issued).symm
  | deleted copy => exact fun r hr => hlast r (List.mem_filter.mp hr).1
  | rotated copy key fresh hkey =>
    intro y hy
    obtain ⟨r, hr, rfl⟩ := mem_updateWhere.mp hy
    by_cases hid : r.id = copy.id
    · rw [if_pos (by simpa using hid)]
      show some fresh.1 = (issue copy.id (some fresh.1) db.issued).lookup r.id
      rw [hid]
      exact (lookup_issue_self copy.id fresh.1 db.issued).symm
    · rw [if_neg (by simpa using hid), hlast r hr]
      exact (lookup_issue_of_ne hid _ db.issued).symm
  | digested now copy todo key hkey =>
    intro y hy
    obtain ⟨r, hr, rfl⟩ := mem_updateWhere.mp hy
    by_cases hid : r.id = copy.id
    · rw [if_pos (by simpa using hid)]
      exact hlast r hr
    · rw [if_neg (by simpa using hid)]
      exact hlast r hr
  | ended | counting | counted | loaded | skipping | locking | checked | inserting | deleting
  | rotating | digesting => exact hlast

section Run

variable {ι : Type*} [DecidableEq ι] {c₀ c : Requests ι}

omit [DecidableEq ι] in
theorem Fresh.unused (h0 : Fresh c₀) (p : ι) (db : Db) : Unused (c₀.loc p) db := by
  obtain ⟨r, hr⟩ := h0 p
  rw [hr]
  exact ⟨fun i hi => (by cases hi), fun i hi => (by cases hi), fun i hi => (by cases hi),
    fun _ _ _ h => (by cases h)⟩

omit [DecidableEq ι] in
theorem Fresh.apart (h0 : Fresh c₀) (p q : ι) : Apart (c₀.loc p) (c₀.loc q) := by
  obtain ⟨r, hr⟩ := h0 p
  obtain ⟨r', hr'⟩ := h0 q
  rw [hr, hr']
  exact ⟨fun i hi => (by cases hi), fun i hi => (by cases hi)⟩

theorem numbered_lastIssued_of_reach (h0 : Fresh c₀) (hnum : Numbered c₀.shared.state)
    (hlast : LastIssued c₀.shared.state) (h : Reach (next s) (OnAdvance KeepsSecrets) c₀ c) :
    Numbered c.shared.state ∧ LastIssued c.shared.state := by
  have hmeets : Holds (fun db => Numbered db ∧ LastIssued db) Unused Apart c₀ :=
    ⟨⟨hnum, hlast⟩, fun p => h0.unused p _, fun p q _ => h0.apart p q⟩
  refine (invariant_of_acts (fun _ _ hlm => ⟨hlm.2, hlm.1⟩) ?_ ?_ ?_ ?_ h0 hmeets h).shared
  · intro c p a l db hc hok hact
    have he := act_effect hact
    exact ⟨⟨hc.shared.1.effect (hc.each p) he,
      hc.shared.2.effect (hc.each p) (hok.of_act hact) he⟩, (hc.each p).effect_own hc.shared.1 he⟩
  · intro c p a l db q hc _ _ hact hq
    exact (hc.each q).effect_other (hc.pair p q hq.symm) (act_effect hact)
  · intro c p a l db q hc _ hact hq
    exact (hc.pair p q hq.symm).effect (hc.each q) (act_effect hact)
  · intro c e db hc henv
    cases henv
    -- a notification keeps the id and the secret of every row
    have hrow : ∀ y ∈ updateWhere (fun r => r.id == e.id && r.interval == .instant)
        (fun r => { r with lastNotifiedAt := some e.now }) c.shared.state.rows,
        ∃ r ∈ c.shared.state.rows, r.id = y.id ∧ r.webhookSecret = y.webhookSecret := by
      intro y hy
      obtain ⟨r, hr, rfl⟩ := mem_updateWhere.mp hy
      refine ⟨r, hr, ?_, ?_⟩ <;> split <;> rfl
    refine ⟨⟨⟨fun y hy => ?_, hc.shared.1.issued⟩, fun y hy => ?_⟩,
      fun p => ⟨(hc.each p).lt, fun i hi y hy => ?_, (hc.each p).noSecret, (hc.each p).issued⟩⟩
    · obtain ⟨r, hr, hid, -⟩ := hrow y hy
      exact hid ▸ hc.shared.1.rows r hr
    · obtain ⟨r, hr, hid, hsecret⟩ := hrow y hy
      rw [← hid, ← hsecret]
      exact hc.shared.2 r hr
    · obtain ⟨r, hr, hid, -⟩ := hrow y hy
      exact hid ▸ (hc.each p).noRow i hi r hr

/-- **An issued secret is not lost in runs whose updates find the secrets they
loaded.**  In each state of such a run every row is stored with the secret that
was returned for it last, and a step that issues no secret changes none. -/
theorem last_issued_of_reach (h0 : Fresh c₀) (hnum : Numbered c₀.shared.state)
    (hlast : LastIssued c₀.shared.state) (h : Reach (next s) (OnAdvance KeepsSecrets) c₀ c) :
    LastIssued c.shared.state ∧
      ∀ m c', OnAdvance KeepsSecrets c m → next s m c = some c' →
        c'.shared.state.issued = c.shared.state.issued →
        ∀ r ∈ c.shared.state.rows, ∀ r' ∈ c'.shared.state.rows, r'.id = r.id →
          r'.webhookSecret = r.webhookSecret := by
  have hc := (numbered_lastIssued_of_reach h0 hnum hlast h).2
  refine ⟨hc, fun m c' hok hnext hissued r hr r' hr' hid => ?_⟩
  have hc' := (numbered_lastIssued_of_reach h0 hnum hlast (h.step hok hnext)).2
  rw [hc' r' hr', hissued, hid, hc r hr]

end Run

/-! ### A run that keeps the secret, and one that loses it -/

instance : (l : Phase) → (db : Db) → Decidable (KeepsSecrets l db)
  | .write (.update copy attrs) _, db => inferInstanceAs (Decidable
      (¬ NeedsSecret (attrs.patch copy) →
        ∃ r ∈ db.rows, r.id = copy.id ∧ r.webhookSecret = copy.webhookSecret))
  | .received _, _ | .countOwned _ _, _ | .checkTarget _, _ | .countOthers _ _, _
  | .write (.create _ _) _, _ | .inserted _ _ _, _ | .delete _, _ | .rotate _, _ | .digest _ _, _
  | .finished _, _ => isTrue trivial

/-- One webhook; its owner rotates the secret and renames it. -/
def renamedHook : Requests (Fin 2) where
  shared := ⟨⟨[hookRow 1 1 "https://a.example/in".toList "first".toList], 2,
    [(1, "first".toList)]⟩, []⟩
  loc
    | 0 => .received (.rotateSecret 1 1)
    | 1 => .received (.update 1 1 true { noAttrs with name := some "renamed".toList })

theorem renamedHook_fresh : Fresh renamedHook := by
  intro p
  match p with
  | 0 => exact ⟨_, rfl⟩
  | 1 => exact ⟨_, rfl⟩

theorem renamedHook_numbered : Numbered renamedHook.shared.state := ⟨by decide, by decide⟩

theorem renamedHook_lastIssued : LastIssued renamedHook.shared.state := by
  unfold LastIssued
  decide

/-- The row is renamed after the rotation. -/
theorem last_issued_of_reach_renamed :
    ∃ c, Reach (next defaultSettings) (OnAdvance KeepsSecrets) renamedHook c ∧
      c.loc 0 = .finished (.answered (some "fresh".toList)) ∧
      c.loc 1 = .finished (.answered none) ∧ LastIssued c.shared.state := by
  have hrun : ((exec (next defaultSettings) [go 0, go 0, go 1, go 1, go 1] renamedHook).map
      fun c => (c.loc 0, c.loc 1)) =
      some (.finished (.answered (some "fresh".toList)), .finished (.answered none)) := by
    decide
  obtain ⟨c, hreach, hend⟩ := Reach.exists_of_exec (OnAdvance KeepsSecrets) hrun (by decide)
  exact ⟨c, hreach, congrArg Prod.fst hend, congrArg Prod.snd hend,
    (last_issued_of_reach renamedHook_fresh renamedHook_numbered renamedHook_lastIssued hreach).1⟩

/-- **A stale update restores a secret.**  It was loaded before the rotation and
writes every column of its copy; deliveries are then signed with a secret its
owner has replaced. -/
theorem stale_update_restores_a_secret :
    ∃ c, Reach (next defaultSettings) anyMove renamedHook c ∧ Fresh renamedHook ∧
      LastIssued renamedHook.shared.state ∧
      (∀ p, ∃ o, c.loc p = .finished o) ∧ ¬ LastIssued c.shared.state := by
  have hrun : ((exec (next defaultSettings) [go 1, go 0, go 0, go 1, go 1] renamedHook).map
      fun c => (c.loc 0, c.loc 1,
        c.shared.state.rows.all fun r => r.webhookSecret = c.shared.state.issued.lookup r.id)) =
      some (.finished (.answered (some "fresh".toList)), .finished (.answered none), false) := by
    decide
  obtain ⟨c, hreach, hend⟩ := Reach.exists_of_exec anyMove hrun (along_anyMove _ _)
  refine ⟨c, hreach, renamedHook_fresh, renamedHook_lastIssued, fun p => ?_, fun hlast => ?_⟩
  · match p with
    | 0 => exact ⟨_, congrArg (fun x => x.1) hend⟩
    | 1 => exact ⟨_, congrArg (fun x => x.2.1) hend⟩
  · obtain ⟨r, hr, hno⟩ := List.all_eq_false.mp (congrArg (fun x => x.2.2) hend)
    exact hno (decide_eq_true (hlast r hr))

end SubscriptionApi
