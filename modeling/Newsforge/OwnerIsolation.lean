/-
Nobody writes the subscriptions of another user.

The runs are those of `Newsforge.SubscriptionApi`: any number of requests of any users,
interleaved statement by statement, next to digests and deliveries.

* `Phase.owner?`, `Phase.writes` — for whom a request acts, and the row it may write;
* `Untouched` — the invariant of the database: the rows of the user are as they were, and
  nobody else has one of their ids;
* `Foreign` — the assertion of a request of someone else.

Main result: `others_leave_subscriptions`.
-/
import Newsforge.Digest
import Newsforge.IssuedSecret

open PyText Tables Runs

namespace SubscriptionApi

open SafeHttp Subscriptions Targets

/-! ### For whom a request acts -/

/-- The user of a request; a digest has none. -/
def Request.owner? : Request → Option ℕ
  | .create owner _ | .update owner _ _ _ | .delete owner _ | .rotateSecret owner _ => some owner
  | .digest _ => none

/-- The user a request acts for. -/
def Phase.owner? : Phase → Option ℕ
  | .received r => r.owner?
  | .countOwned owner _ => some owner
  | .checkTarget j | .countOthers j _ | .write j _ => some j.owner
  | .inserted row _ _ => some row.owner
  | .delete copy | .rotate copy => some copy.owner
  | .digest _ _ | .finished _ => none

/-- The row that a job may write. -/
def Job.writes : Job → Option ℕ
  | .create _ _ => none
  | .update copy _ => some copy.id

/-- The row that a request may write. -/
def Phase.writes : Phase → Option ℕ
  | .checkTarget j | .countOthers j _ | .write j _ => j.writes
  | .inserted row _ _ => some row.id
  | .delete copy | .rotate copy => some copy.id
  | .received _ | .countOwned _ _ | .digest _ _ | .finished _ => none

variable {s : Settings} {l l' : Phase} {db db' : Db} {fresh : Secret}

/-- A request that was received acts for its user, on rows of the user. -/
theorem received_own {r : Request} (h : advance s fresh (.received r) db = some (l', db')) :
    (∀ o ∈ l'.owner?, r.owner? = some o) ∧
      ∀ i ∈ l'.writes, ∃ row ∈ db.rows, row.id = i ∧ r.owner? = some row.owner := by
  cases r with
  | create owner attrs =>
    rw [advance] at h
    split at h
    · cases h
      exact ⟨fun o ho => (by cases ho), fun i hi => (by cases hi)⟩
    · cases h
      exact ⟨fun o ho => ho, fun i hi => (by cases hi)⟩
  | update owner pk isPartial attrs =>
    rw [advance] at h
    split at h
    · cases h
      exact ⟨fun o ho => (by cases ho), fun i hi => (by cases hi)⟩
    · rename_i copy hget
      obtain ⟨hmem, -, howner⟩ := Db.getObject_eq_some hget
      split at h
      · cases h
        exact ⟨fun o ho => (by cases ho), fun i hi => (by cases hi)⟩
      · cases h
        refine ⟨fun o ho => ?_, fun i hi => ?_⟩
        · cases ho
          exact congrArg some howner.symm
        · cases hi
          exact ⟨copy, hmem, rfl, congrArg some howner.symm⟩
  | delete owner pk =>
    rw [advance] at h
    split at h
    · cases h
      exact ⟨fun o ho => (by cases ho), fun i hi => (by cases hi)⟩
    · rename_i copy hget
      obtain ⟨hmem, -, howner⟩ := Db.getObject_eq_some hget
      cases h
      refine ⟨fun o ho => ?_, fun i hi => ?_⟩
      · cases ho
        exact congrArg some howner.symm
      · cases hi
        exact ⟨copy, hmem, rfl, congrArg some howner.symm⟩
  | rotateSecret owner pk =>
    rw [advance] at h
    split at h
    · cases h
      exact ⟨fun o ho => (by cases ho), fun i hi => (by cases hi)⟩
    · rename_i copy hget
      obtain ⟨hmem, -, howner⟩ := Db.getObject_eq_some hget
      split at h
      · cases h
        refine ⟨fun o ho => ?_, fun i hi => ?_⟩
        · cases ho
          exact congrArg some howner.symm
        · cases hi
          exact ⟨copy, hmem, rfl, congrArg some howner.symm⟩
      · cases h
        exact ⟨fun o ho => (by cases ho), fun i hi => (by cases hi)⟩
  | digest now =>
    cases h
    exact ⟨fun o ho => (by cases ho), fun i hi => (by cases hi)⟩

/-- Later it goes on acting for the user, on the row it has loaded or on a new one. -/
theorem Effect.own (h : Effect s l db l' db') (hloaded : ∀ r, l ≠ .received r) :
    (∀ o ∈ l'.owner?, l.owner? = some o) ∧
      ∀ i ∈ l'.writes, l.writes = some i ∨ db.nextId ≤ i := by
  cases h with
  | ended => exact ⟨fun o ho => (by cases ho), fun i hi => (by cases hi)⟩
  | counting | loaded | deleting | rotating | digesting => exact absurd rfl (hloaded _)
  | counted => exact ⟨fun o ho => ho, fun i hi => (by cases hi)⟩
  | skipping | locking | checked => exact ⟨fun o ho => ho, fun i hi => .inl hi⟩
  | inserting owner attrs passed key fresh =>
    refine ⟨fun o ho => ?_, fun i hi => ?_⟩
    · rw [Phase.owner?, Job.written_owner] at ho
      exact ho
    · rw [Phase.writes, Job.written_create_id] at hi
      cases hi
      exact .inr le_rfl
  | committed | saved | deleted | rotated | digested =>
    exact ⟨fun o ho => (by cases ho), fun i hi => (by cases hi)⟩

/-! ### The rows of a user -/

/-- The rows of a user, but for what digests and deliveries write. -/
def rowsOf (u : ℕ) (rows : List Subscription) : List Subscription :=
  (rows.filter fun r => r.owner == u).map Digest.fixed

/-- The ids of the rows of a user. -/
def idsOf (u : ℕ) (rows : List Subscription) : List ℕ :=
  (rows.filter fun r => r.owner == u).map Subscription.id

/-- The rows of the user are those in `db₀`, no other row has one of their ids, and no new
secret was returned for them. -/
structure Untouched (u : ℕ) (db₀ db : Db) : Prop where
  rows : rowsOf u db.rows = rowsOf u db₀.rows
  apart : ∀ r ∈ db.rows, r.owner ≠ u → r.id ∉ idsOf u db₀.rows
  below : ∀ i ∈ idsOf u db₀.rows, i < db.nextId
  issued : ∀ x ∈ db.issued, x.1 ∈ idsOf u db₀.rows → x ∈ db₀.issued

/-- The request acts for someone else, on rows that are not the user's. -/
structure Foreign (u : ℕ) (ids : List ℕ) (l : Phase) : Prop where
  owner : l.owner? ≠ some u
  writes : ∀ i ∈ l.writes, i ∉ ids

/-- A write to rows of others, which stay theirs. -/
theorem rowsOf_updateWhere {u : ℕ} {p : Subscription → Bool} {f : Subscription → Subscription}
    {rows : List Subscription}
    (h : ∀ r ∈ rows, p r = true → r.owner ≠ u ∧ (f r).owner ≠ u) :
    rowsOf u (updateWhere p f rows) = rowsOf u rows := by
  rw [rowsOf, filter_updateWhere, rowsOf]
  intro r hr hp
  obtain ⟨hbefore, hafter⟩ := h r hr hp
  exact ⟨beq_eq_false_iff_ne.mpr hbefore, beq_eq_false_iff_ne.mpr hafter⟩

/-- A write of columns that digests and deliveries write. -/
theorem rowsOf_timed {u : ℕ} {p : Subscription → Bool} {f : Subscription → Subscription}
    {rows : List Subscription}
    (hf : ∀ r, (f r).owner = r.owner ∧ Digest.fixed (f r) = Digest.fixed r) :
    rowsOf u (updateWhere p f rows) = rowsOf u rows := by
  induction rows with
  | nil => rfl
  | cons r rows ih =>
    rw [rowsOf, rowsOf, updateWhere] at ih ⊢
    rw [List.map_cons]
    by_cases hp : p r = true
    · obtain ⟨howner, hfixed⟩ := hf r
      rw [if_pos hp, List.filter_cons, List.filter_cons, howner]
      split
      · rw [List.map_cons, List.map_cons, hfixed, ih]
      · exact ih
    · rw [if_neg hp, List.filter_cons, List.filter_cons]
      split
      · rw [List.map_cons, List.map_cons, ih]
      · exact ih

/-- The same rows for the user, and rows of others under ids of others. -/
theorem Untouched.write {u : ℕ} {db₀ : Db} (h : Untouched u db₀ db)
    (hrows : rowsOf u db'.rows = rowsOf u db.rows)
    (hapart : ∀ r ∈ db'.rows, r.owner ≠ u → r.id ∉ idsOf u db₀.rows)
    (hnext : db.nextId ≤ db'.nextId)
    (hissued : ∀ x ∈ db'.issued, x ∈ db.issued ∨ x.1 ∉ idsOf u db₀.rows) :
    Untouched u db₀ db' where
  rows := hrows.trans h.rows
  apart := hapart
  below i hi := (h.below i hi).trans_le hnext
  issued x hx hi := (hissued x hx).elim (fun hold => h.issued x hold hi) fun hno => absurd hi hno

/-- A row with an id that no row of the user has belongs to someone else. -/
theorem Untouched.owner_ne {u : ℕ} {db₀ : Db} (h : Untouched u db₀ db) {r : Subscription}
    (hr : r ∈ db.rows) (hid : r.id ∉ idsOf u db₀.rows) : r.owner ≠ u := by
  intro howner
  have hrow : Digest.fixed r ∈ rowsOf u db.rows :=
    List.mem_map_of_mem (List.mem_filter.mpr ⟨hr, beq_iff_eq.mpr howner⟩)
  rw [h.rows] at hrow
  obtain ⟨r₀, hr₀, hfixed⟩ := List.mem_map.mp hrow
  have hsame : r₀.id = r.id := by
    have := congrArg Subscription.id hfixed
    exact this
  exact hid (hsame ▸ List.mem_map_of_mem hr₀)

/-- **A step of someone else.** -/
theorem Untouched.effect {u : ℕ} {db₀ : Db} (h : Untouched u db₀ db)
    (hl : Foreign u (idsOf u db₀.rows) l) (he : Effect s l db l' db') : Untouched u db₀ db' := by
  cases he with
  | committed row issued passed =>
    have howner : row.owner ≠ u := fun heq => hl.owner (congrArg some heq)
    have hid := hl.writes row.id rfl
    refine h.write ?_ (fun r hr hne => ?_) le_rfl fun x hx => ?_
    · rw [rowsOf, List.filter_append, List.filter_cons_of_neg (by simpa using howner),
        List.filter_nil, List.append_nil, rowsOf]
    · rcases List.mem_append.mp hr with hr | hr
      · exact h.apart r hr hne
      · rwa [List.mem_singleton.mp hr]
    · refine (mem_issue hx).symm.imp_right fun heq => ?_
      rw [heq]
      exact hid
  | saved copy attrs passed key fresh =>
    have hid := hl.writes copy.id rfl
    have howner : ((Job.update copy attrs).written copy.id key fresh).1.owner ≠ u := by
      rw [Job.written_owner]
      exact fun heq => hl.owner (congrArg some heq)
    have hwritten : ((Job.update copy attrs).written copy.id key fresh).1.id = copy.id :=
      Job.written_update_id ..
    refine h.write ?_ (fun r hr hne => ?_) le_rfl fun x hx => ?_
    · show rowsOf u (put Subscription.id _ db.rows) = _
      rw [put]
      split
      · refine rowsOf_updateWhere fun r hr hp => ⟨h.owner_ne hr ?_, howner⟩
        rw [beq_iff_eq.mp hp, hwritten]
        exact hid
      · rw [rowsOf, List.filter_append, List.filter_cons_of_neg (by simpa using howner),
          List.filter_nil, List.append_nil, rowsOf]
    · rcases mem_put hr with rfl | ⟨hr, -⟩
      · rwa [hwritten]
      · exact h.apart r hr hne
    · refine (mem_issue hx).symm.imp_right fun heq => ?_
      rw [heq]
      exact hid
  | deleted copy =>
    have hid := hl.writes copy.id rfl
    refine h.write ?_ (fun r hr hne => h.apart r (List.mem_filter.mp hr).1 hne) le_rfl
      fun x hx => .inl hx
    rw [rowsOf, List.filter_filter, rowsOf]
    refine congrArg (List.map Digest.fixed) (List.filter_congr fun r hr => ?_)
    by_cases howner : r.owner = u
    · have hne : r.id ≠ copy.id := by
        intro heq
        exact h.owner_ne hr (heq ▸ hid) howner
      simp [howner, hne]
    · simp [howner]
  | rotated copy key fresh =>
    have hid := hl.writes copy.id rfl
    have hothers : ∀ r ∈ db.rows, (r.id == copy.id) = true → r.owner ≠ u := fun r hr hp =>
      h.owner_ne hr (beq_iff_eq.mp hp ▸ hid)
    refine h.write (rowsOf_updateWhere fun r hr hp => ⟨hothers r hr hp, hothers r hr hp⟩)
      (forall_updateWhere h.apart fun r hr _ => h.apart r hr) le_rfl fun x hx => ?_
    · refine (mem_issue hx).symm.imp_right fun heq => ?_
      rw [heq]
      exact hid
  | digested now copy todo key =>
    exact h.write (rowsOf_timed fun r => ⟨rfl, rfl⟩)
      (forall_updateWhere h.apart fun r hr _ => h.apart r hr) le_rfl fun x hx => .inl hx
  | inserting => exact h.write rfl h.apart (Nat.le_succ _) fun x hx => .inl hx
  | ended | counting | counted | loaded | skipping | locking | checked | deleting | rotating
  | digesting => exact h

theorem Foreign.finished (u : ℕ) (ids : List ℕ) (o : Outcome) : Foreign u ids (.finished o) :=
  ⟨fun heq => (nomatch heq), fun _ hi => (nomatch hi)⟩

/-- A request of someone else stays one. -/
theorem Foreign.act {u : ℕ} {db₀ : Db} {a : Action} (hdb : Untouched u db₀ db)
    (hl : Foreign u (idsOf u db₀.rows) l) (h : act s a l db = some (l', db')) :
    Foreign u (idsOf u db₀.rows) l' := by
  cases a with
  | abort =>
    cases l with
    | finished o => cases h
    | _ =>
      cases h
      exact .finished ..
  | advance fresh =>
    by_cases hreceived : ∃ r, l = .received r
    · obtain ⟨r, rfl⟩ := hreceived
      obtain ⟨howner, hwrites⟩ := received_own h
      refine ⟨fun heq => hl.owner (howner u heq), fun i hi => ?_⟩
      obtain ⟨row, hrow, rfl, hown⟩ := hwrites i hi
      refine hdb.apart row hrow fun heq => hl.owner ?_
      rw [← heq]
      exact hown
    · obtain ⟨howner, hwrites⟩ :=
        (advance_effect h).own fun r hr => hreceived ⟨r, hr⟩
      refine ⟨fun heq => hl.owner (howner u heq), fun i hi => ?_⟩
      rcases hwrites i hi with hold | hnew
      · exact hl.writes i hold
      · exact fun hin => absurd (hdb.below i hin) (not_lt.mpr hnew)

/-- **Nobody writes the subscriptions of another user.**  Whatever requests of others, digests
and deliveries do, and however they interleave, the user keeps the same subscriptions with
the same filters, targets and secrets, and nobody is told a secret of one of them. -/
theorem others_leave_subscriptions {ι : Type*} [DecidableEq ι] {c₀ c : Requests ι} {u : ℕ}
    (h0 : Fresh c₀) (hids : (c₀.shared.state.rows.map Subscription.id).Nodup)
    (hnext : ∀ r ∈ c₀.shared.state.rows, r.id < c₀.shared.state.nextId)
    (hothers : ∀ p r, c₀.loc p = .received r → r.owner? ≠ some u)
    (h : Reach (next s) anyMove c₀ c) :
    rowsOf u c.shared.state.rows = rowsOf u c₀.shared.state.rows ∧
      ∀ x ∈ c.shared.state.issued, x.1 ∈ idsOf u c₀.shared.state.rows →
        x ∈ c₀.shared.state.issued := by
  have hinit : Untouched u c₀.shared.state c₀.shared.state := by
    refine ⟨rfl, fun r hr hne hin => ?_, fun i hi => ?_, fun x hx _ => hx⟩
    · obtain ⟨r', hr', hid⟩ := List.mem_map.mp hin
      obtain ⟨hmem, howner⟩ := List.mem_filter.mp hr'
      rw [List.inj_on_of_nodup_map hids hmem hr hid] at howner
      exact hne (beq_iff_eq.mp howner)
    · obtain ⟨r, hr, rfl⟩ := List.mem_map.mp hi
      exact hnext r (List.mem_filter.mp hr).1
  have hmeets : Holds (Untouched u c₀.shared.state)
      (fun l _ => Foreign u (idsOf u c₀.shared.state.rows) l) (fun _ _ => True) c₀ := by
    refine ⟨hinit, fun p => ?_, fun _ _ _ => trivial⟩
    obtain ⟨r, hr⟩ := h0 p
    rw [hr]
    exact ⟨hothers p r hr, fun i hi => by cases hi⟩
  have hend := (invariant_of_acts (fun _ _ _ => trivial) ?_ ?_ ?_ ?_ h0 hmeets h).shared
  · exact ⟨hend.rows, hend.issued⟩
  · intro c p a l db hc _ hact
    exact ⟨hc.shared.effect (hc.each p) (act_effect hact), (hc.each p).act hc.shared hact⟩
  · exact fun c p a l db q hc _ _ _ _ => hc.each q
  · exact fun _ _ _ _ _ _ _ _ _ _ => trivial
  · intro c e db hc henv
    cases henv
    exact ⟨hc.shared.write (rowsOf_timed fun r => ⟨rfl, rfl⟩)
      (forall_updateWhere hc.shared.apart fun r hr _ => hc.shared.apart r hr) le_rfl
        fun x hx => .inl hx, hc.each⟩

/-- User 2 tries to change and to delete a subscription of user 1, who has two. -/
def intruder : Requests (Fin 3) where
  shared := ⟨⟨[mailRow 1 1 "own@example.org".toList,
    hookRow 2 1 "https://a.example/in".toList "first".toList,
    mailRow 3 2 "me@example.org".toList], 4, []⟩, []⟩
  loc
    | 0 => .received (.update 2 2 true { noAttrs with name := some "taken".toList })
    | 1 => .received (.delete 2 3)
    | 2 => .received (.rotateSecret 2 2)

theorem others_leave_subscriptions_intruder :
    ∃ c, Reach (next defaultSettings) anyMove intruder c ∧
      c.loc 0 = .finished .notFound ∧ c.loc 1 = .finished (.answered none) ∧
      rowsOf 1 c.shared.state.rows = rowsOf 1 intruder.shared.state.rows := by
  have hrun : ((exec (next defaultSettings) [go 1, go 0, go 1, go 2] intruder).map
      fun c => (c.loc 0, c.loc 1)) =
      some (.finished .notFound, .finished (.answered none)) := by decide
  obtain ⟨c, hreach, hend⟩ := Reach.exists_of_exec anyMove hrun (along_anyMove _ _)
  have hfresh : Fresh intruder := by
    intro p
    match p with
    | 0 => exact ⟨_, rfl⟩
    | 1 => exact ⟨_, rfl⟩
    | 2 => exact ⟨_, rfl⟩
  have hothers : ∀ p r, intruder.loc p = .received r → r.owner? ≠ some 1 := by
    intro p r hr
    match p with
    | 0 => cases hr; decide
    | 1 => cases hr; decide
    | 2 => cases hr; decide
  exact ⟨c, hreach, congrArg Prod.fst hend, congrArg Prod.snd hend,
    (others_leave_subscriptions hfresh (by decide) (by decide) hothers hreach).1⟩

end SubscriptionApi
