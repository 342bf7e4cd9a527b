/-
The cap on the subscriptions of a user.

`create` counts under the lock of its owner.  `update` takes no lock, and a full
save inserts its row again when the row is gone.

* `OwnersCapped` — nobody has more than `MAX_SUBSCRIPTIONS_PER_USER`;
* `OneOwner`, `Counted`, `Agree` — an id has one owner for ever, and who has
  counted still has room;
* `Effect.ownedCount_le` — who gets one more row in a step;
* `FindsRow` — an update finds its row when it saves.

Main results: `owner_cap_of_reach` (the cap holds in every run whose updates
find their rows, and a request that is refused has changed nothing) and
`stale_update_restores_a_row` (with the default settings, a `PATCH` of a
deleted subscription takes its owner over the cap).
-/
import Newsforge.SubscriptionApi

open PyText Tables Runs

namespace SubscriptionApi

open SafeHttp Subscriptions Targets

/-! ### Counts -/

/-- The invariant of the owners. -/
def OwnersCapped (s : Settings) (rows : List Subscription) : Prop :=
  ∀ o, ownedCount o rows ≤ s.maxSubscriptionsPerUser

theorem ownedCount_eq_count (o : ℕ) (rows : List Subscription) :
    ownedCount o rows = (rows.map Subscription.owner).count o := by
  rw [ownedCount, ← List.countP_eq_length_filter, List.count_eq_countP, List.countP_map]
  rfl

/-- An update of rows in place that keeps owners keeps the counts. -/
theorem ownedCount_updateWhere {p : Subscription → Bool} {f : Subscription → Subscription}
    {rows : List Subscription} (howner : ∀ r ∈ rows, p r = true → (f r).owner = r.owner) (o : ℕ) :
    ownedCount o (updateWhere p f rows) = ownedCount o rows := by
  rw [ownedCount_eq_count, ownedCount_eq_count, map_updateWhere_of_mem howner]

theorem ownedCount_filter_le (p : Subscription → Bool) (rows : List Subscription) (o : ℕ) :
    ownedCount o (rows.filter p) ≤ ownedCount o rows := by
  rw [ownedCount, ownedCount, List.filter_filter, List.filter_congr fun r _ => Bool.and_comm _ _,
    ← List.filter_filter]
  exact List.length_filter_le _ _

theorem ownedCount_concat (o : ℕ) (rows : List Subscription) (row : Subscription) :
    ownedCount o (rows ++ [row]) = ownedCount o rows + if row.owner = o then 1 else 0 := by
  rw [ownedCount, List.filter_append, List.length_append]
  congr 1
  by_cases ho : row.owner = o <;> simp [ho]

/-! ### Ids and their owners -/

/-- The row a request may insert: id and owner. -/
def Phase.inserts : Phase → Option (ℕ × ℕ)
  | .checkTarget j | .countOthers j _ | .write j _ =>
    match j with
    | .create _ _ => none
    | .update copy _ => some (copy.id, copy.owner)
  | .inserted row _ _ => some (row.id, row.owner)
  | _ => none

/-- The owner whose rows a `create` has counted; it holds the lock of the owner. -/
def Phase.counted : Phase → Option ℕ
  | .checkTarget j | .countOthers j _ | .write j _ =>
    match j with
    | .create owner _ => some owner
    | .update _ _ => none
  | .inserted row _ _ => some row.owner
  | _ => none

/-- The sequence is ahead of the ids, and an id has one owner. -/
structure OneOwner (db : Db) : Prop where
  lt : ∀ r ∈ db.rows, r.id < db.nextId
  same : ∀ r ∈ db.rows, ∀ r' ∈ db.rows, r.id = r'.id → r.owner = r'.owner

/-- What a request knows of the row it may insert, and that there still is room
for an owner it has counted. -/
structure Counted (s : Settings) (l : Phase) (db : Db) : Prop where
  lt : ∀ x ∈ l.inserts, x.1 < db.nextId
  same : ∀ x ∈ l.inserts, ∀ r ∈ db.rows, r.id = x.1 → r.owner = x.2
  room : ∀ o, l.counted = some o → ownedCount o db.rows < s.maxSubscriptionsPerUser

/-- Two requests agree on the owner of an id. -/
def Agree (l m : Phase) : Prop := ∀ x ∈ l.inserts, ∀ y ∈ m.inserts, x.1 = y.1 → x.2 = y.2

/-- An update finds its row when it saves. -/
def FindsRow : Phase → Db → Prop
  | .write (.update copy _) _, db => ∃ r ∈ db.rows, r.id = copy.id
  | _, _ => True

theorem Agree.symm {l m : Phase} (h : Agree l m) : Agree m l :=
  fun x hx y hy hxy => (h y hy x hx hxy.symm).symm

theorem Phase.lock_of_counted {s : Settings} {l : Phase} {o : ℕ} (h : l.counted = some o) :
    Lock.owner o ∈ l.locks s := by
  cases l with
  | checkTarget j =>
    cases j <;> cases h
    exact List.mem_cons_self
  | countOthers j key =>
    cases j <;> cases h
    exact List.mem_cons_of_mem _ List.mem_cons_self
  | write j passed =>
    cases j <;> cases h
    exact List.mem_append_right _ List.mem_cons_self
  | inserted row issued passed =>
    cases h
    exact List.mem_append_right _ List.mem_cons_self
  | _ => cases h

variable {s : Settings} {l l' : Phase} {db db' : Db}

/-- A row after a step was there before, with its owner, or is one the request
may insert. -/
theorem Effect.row_owner (h : Effect s l db l' db') {r : Subscription} (hr : r ∈ db'.rows) :
    (∃ r₀ ∈ db.rows, r₀.id = r.id ∧ r₀.owner = r.owner) ∨ (r.id, r.owner) ∈ l.inserts := by
  cases h with
  | committed row issued passed =>
    rcases List.mem_append.mp hr with hr | hr
    · exact .inl ⟨r, hr, rfl, rfl⟩
    · rw [List.mem_singleton.mp hr]
      exact .inr rfl
  | saved copy attrs passed key fresh hkey =>
    rcases mem_put hr with rfl | ⟨hr, -⟩
    · rw [Job.written_update_id, Job.written_owner]
      exact .inr rfl
    · exact .inl ⟨r, hr, rfl, rfl⟩
  | deleted copy => exact .inl ⟨r, (List.mem_filter.mp hr).1, rfl, rfl⟩
  | rotated copy key fresh hkey =>
    obtain ⟨r₀, hr₀, rfl⟩ := mem_updateWhere.mp hr
    refine .inl ⟨r₀, hr₀, ?_, ?_⟩ <;> split <;> rfl
  | digested now copy todo key hkey =>
    obtain ⟨r₀, hr₀, rfl⟩ := mem_updateWhere.mp hr
    refine .inl ⟨r₀, hr₀, ?_, ?_⟩ <;> split <;> rfl
  | ended | counting | counted | loaded | skipping | locking | checked | inserting | deleting
  | rotating | digesting => exact .inl ⟨r, hr, rfl, rfl⟩

/-- A request gets what it may insert from the table or from the sequence. -/
theorem Effect.inserts (h : Effect s l db l' db') {x : ℕ × ℕ} (hx : x ∈ l'.inserts) :
    x ∈ l.inserts ∨ (∃ r ∈ db.rows, (r.id, r.owner) = x) ∨
      x.1 = db.nextId ∧ db' = { db with nextId := db.nextId + 1 } := by
  cases h with
  | counted owner attrs hroom => cases hx
  | loaded r copy attrs hcopy => exact .inr (.inl ⟨copy, hcopy, Option.some_inj.mp hx⟩)
  | skipping j hskip | locking j key hkey hne | checked j key hroom => exact .inl hx
  | inserting owner attrs passed key fresh hkey =>
    cases hx
    exact .inr (.inr ⟨Job.written_create_id .., rfl⟩)
  | ended | counting | committed | saved | deleting | deleted | rotating | rotated | digesting
  | digested => cases hx

/-- **Who gets one more row.**  If updates find their rows, only a `create` that
has counted adds a row, one of its owner. -/
theorem Effect.ownedCount_le (h : Effect s l db l' db') (hl : Counted s l db)
    (hfinds : FindsRow l db ∨ db' = db) (o : ℕ) :
    ownedCount o db'.rows ≤ ownedCount o db.rows ∨
      l.counted = some o ∧ ownedCount o db'.rows ≤ ownedCount o db.rows + 1 := by
  rcases hfinds with hfinds | hsame
  swap
  · rw [hsame]
    exact .inl (Nat.le_refl _)
  cases h with
  | committed row issued passed =>
    show ownedCount o (db.rows ++ [row]) ≤ _ ∨ _ ∧ ownedCount o (db.rows ++ [row]) ≤ _
    rw [ownedCount_concat]
    by_cases ho : row.owner = o
    · rw [if_pos ho]
      exact .inr ⟨congrArg some ho, Nat.le_refl _⟩
    · rw [if_neg ho]
      exact .inl (Nat.le_refl _)
  | saved copy attrs passed key fresh hkey =>
    -- the row is there: it is replaced, and keeps its owner
    obtain ⟨r, hr, hid⟩ := hfinds
    refine .inl (Nat.le_of_eq ?_)
    have hany : (db.rows.any fun r => r.id ==
        ((Job.update copy attrs).written copy.id key fresh).1.id) = true :=
      List.any_eq_true.mpr ⟨r, hr, by simpa using hid⟩
    show ownedCount o (put _ _ db.rows) = _
    rw [put, if_pos hany]
    refine ownedCount_updateWhere (fun x hx hxid => ?_) o
    rw [Job.written_update_id, beq_iff_eq] at hxid
    rw [Job.written_owner]
    exact (hl.same _ rfl x hx hxid).symm
  | deleted copy => exact .inl (ownedCount_filter_le _ _ o)
  | rotated copy key fresh hkey =>
    refine .inl (Nat.le_of_eq (ownedCount_updateWhere ?_ o))
    exact fun _ _ _ => rfl
  | digested now copy todo key hkey =>
    refine .inl (Nat.le_of_eq (ownedCount_updateWhere ?_ o))
    exact fun _ _ _ => rfl
  | ended | counting | counted | loaded | skipping | locking | checked | inserting | deleting
  | rotating | digesting => exact .inl (Nat.le_refl _)

/-- Who has counted after a step has counted in it, or before. -/
theorem Effect.counted_before (h : Effect s l db l' db') {o : ℕ} (ho : l'.counted = some o) :
    db'.rows = db.rows ∧
      (ownedCount o db.rows < s.maxSubscriptionsPerUser ∨ l.counted = some o) := by
  cases h with
  | counted owner attrs hroom =>
    cases ho
    exact ⟨rfl, .inl hroom⟩
  | skipping j hskip | locking j key hkey hne | checked j key hroom => exact ⟨rfl, .inr ho⟩
  | inserting owner attrs passed key fresh hkey =>
    rw [Phase.counted, Job.written_owner] at ho
    exact ⟨rfl, .inr ho⟩
  | ended | counting | loaded | committed | saved | deleting | deleted | rotating | rotated
  | digesting | digested => cases ho

/-! ### What a step keeps -/

theorem OneOwner.effect (hdb : OneOwner db) (hl : Counted s l db) (h : Effect s l db l' db') :
    OneOwner db' := by
  refine ⟨fun r hr => Nat.lt_of_lt_of_le ?_ h.nextId_le, fun r hr r' hr' hid => ?_⟩
  · rcases h.row_owner hr with ⟨r₀, hr₀, hid, -⟩ | hins
    · exact hid ▸ hdb.lt r₀ hr₀
    · exact hl.lt _ hins
  · rcases h.row_owner hr with ⟨a, ha, hai, hao⟩ | hins
    · rcases h.row_owner hr' with ⟨b, hb, hbi, hbo⟩ | hins'
      · rw [← hao, ← hbo]
        exact hdb.same a ha b hb (hai.trans (hid.trans hbi.symm))
      · rw [← hao]
        exact hl.same _ hins' a ha (hai.trans hid)
    · rcases h.row_owner hr' with ⟨b, hb, hbi, hbo⟩ | hins'
      · rw [← hbo]
        exact (hl.same _ hins b hb (hbi.trans hid.symm)).symm
      · -- a request inserts one row at most
        exact congrArg Prod.snd (Option.some_inj.mp (hins.symm.trans hins'))

theorem Counted.effect_own (hdb : OneOwner db) (hl : Counted s l db) (h : Effect s l db l' db') :
    Counted s l' db' := by
  refine ⟨fun x hx => ?_, fun x hx r hr hid => ?_, fun o ho => ?_⟩
  · rcases h.inserts hx with hx | ⟨r, hr, rfl⟩ | ⟨hid, rfl⟩
    · exact Nat.lt_of_lt_of_le (hl.lt x hx) h.nextId_le
    · exact Nat.lt_of_lt_of_le (hdb.lt r hr) h.nextId_le
    · rw [hid]
      exact Nat.lt_succ_self _
  · rcases h.inserts hx with hx | ⟨r', hr', rfl⟩ | ⟨hnew, rfl⟩
    · rcases h.row_owner hr with ⟨a, ha, hai, hao⟩ | hins
      · rw [← hao]
        exact hl.same x hx a ha (hai.trans hid)
      · exact congrArg Prod.snd (Option.some_inj.mp (hins.symm.trans hx))
    · rcases h.row_owner hr with ⟨a, ha, hai, hao⟩ | hins
      · rw [← hao]
        exact hdb.same a ha r' hr' (hai.trans hid)
      · exact (hl.same _ hins r' hr' hid.symm).symm
    · -- the id is new
      exact absurd (hid.trans hnew) (Nat.ne_of_lt (hdb.lt r hr))
  · obtain ⟨hrows, hroom | hbefore⟩ := h.counted_before ho
    · rw [hrows]
      exact hroom
    · rw [hrows]
      exact hl.room o hbefore

/-- Nobody else adds a row of an owner that was counted: both would hold the
lock of the owner. -/
theorem Counted.effect_other {m : Phase} (hm : Counted s m db) (hl : Counted s l db)
    (hlm : Agree l m) (hlocks : NoCommon (Phase.locks s) l m) (h : Effect s l db l' db')
    (hfinds : FindsRow l db ∨ db' = db) : Counted s m db' := by
  refine ⟨fun x hx => Nat.lt_of_lt_of_le (hm.lt x hx) h.nextId_le, fun x hx r hr hid => ?_,
    fun o ho => ?_⟩
  · rcases h.row_owner hr with ⟨a, ha, hai, hao⟩ | hins
    · rw [← hao]
      exact hm.same x hx a ha (hai.trans hid)
    · exact hlm _ hins x hx hid
  · rcases h.ownedCount_le hl hfinds o with hle | ⟨hcounted, -⟩
    · exact Nat.lt_of_le_of_lt hle (hm.room o ho)
    · exact absurd (Phase.lock_of_counted ho) (hlocks _ (Phase.lock_of_counted hcounted))

theorem Agree.effect {m : Phase} (hlm : Agree l m) (hm : Counted s m db)
    (h : Effect s l db l' db') : Agree l' m := by
  intro x hx y hy hxy
  rcases h.inserts hx with hx | ⟨r, hr, rfl⟩ | ⟨hid, -⟩
  · exact hlm x hx y hy hxy
  · exact hm.same y hy r hr hxy
  · exact absurd (hxy.symm.trans hid) (Nat.ne_of_lt (hm.lt y hy))

/-- A request that has changed a row is answered; only a digest goes on. -/
theorem Effect.answered_of_rows_ne (h : Effect s l db l' db') (hrows : db'.rows ≠ db.rows)
    (hdigest : ∀ now todo, l ≠ .digest now todo) : ∃ issued, l' = .finished (.answered issued) := by
  cases h with
  | committed row issued passed => exact ⟨issued, rfl⟩
  | saved copy attrs passed key fresh hkey => exact ⟨_, rfl⟩
  | deleted copy => exact ⟨none, rfl⟩
  | rotated copy key fresh hkey => exact ⟨some fresh.1, rfl⟩
  | digested now copy todo key hkey => exact absurd rfl (hdigest now (copy :: todo))
  | ended | counting | counted | loaded | skipping | locking | checked | inserting | deleting
  | rotating | digesting => exact absurd rfl hrows

section Run

variable {ι : Type*} [DecidableEq ι] {c₀ c : Requests ι}

/-- The invariant of the runs whose updates find their rows. -/
theorem counted_of_reach (h0 : Fresh c₀) (hids : OneOwner c₀.shared.state)
    (hcap : OwnersCapped s c₀.shared.state.rows)
    (h : Reach (next s) (OnAdvance FindsRow) c₀ c) :
    Holds (fun db => OneOwner db ∧ OwnersCapped s db.rows) (Counted s) Agree c := by
  refine invariant_of_acts (fun _ _ => Agree.symm) ?_ ?_ ?_ ?_ h0 ?_ h
  · intro c p a l db hc hok hact
    have he := act_effect hact
    refine ⟨⟨hc.shared.1.effect (hc.each p) he, fun o => ?_⟩,
      (hc.each p).effect_own hc.shared.1 he⟩
    rcases he.ownedCount_le (hc.each p) (hok.of_act hact) o with hle | ⟨hcounted, hle⟩
    · exact Nat.le_trans hle (hc.shared.2 o)
    · exact Nat.le_trans hle ((hc.each p).room o hcounted)
  · intro c p a l db q hc hex hok hact hq
    exact (hc.each q).effect_other (hc.each p) (hc.pair p q hq.symm) (hex p q hq.symm)
      (act_effect hact) (hok.of_act hact)
  · intro c p a l db q hc _ hact hq
    exact (hc.pair p q hq.symm).effect (hc.each q) (act_effect hact)
  · -- a notification writes neither ids nor owners
    intro c e db hc henv
    cases henv
    have hback : ∀ r ∈ updateWhere (fun r => r.id == e.id && r.interval == .instant)
        (fun r => { r with lastNotifiedAt := some e.now }) c.shared.state.rows,
        ∃ r₀ ∈ c.shared.state.rows, r₀.id = r.id ∧ r₀.owner = r.owner := by
      intro r hr
      obtain ⟨r₀, hr₀, rfl⟩ := mem_updateWhere.mp hr
      refine ⟨r₀, hr₀, ?_, ?_⟩ <;> split <;> rfl
    have hcount : ∀ o, ownedCount o (updateWhere (fun r => r.id == e.id && r.interval == .instant)
        (fun r => { r with lastNotifiedAt := some e.now }) c.shared.state.rows) =
        ownedCount o c.shared.state.rows := by
      intro o
      refine ownedCount_updateWhere ?_ o
      exact fun _ _ _ => rfl
    refine ⟨⟨⟨fun r hr => ?_, fun r hr r' hr' hid => ?_⟩, fun o => ?_⟩,
      fun p => ⟨(hc.each p).lt, fun x hx r hr hid => ?_, fun o ho => ?_⟩⟩
    · obtain ⟨r₀, hr₀, hi, -⟩ := hback r hr
      exact hi ▸ hc.shared.1.lt r₀ hr₀
    · obtain ⟨a, ha, hai, hao⟩ := hback r hr
      obtain ⟨b, hb, hbi, hbo⟩ := hback r' hr'
      rw [← hao, ← hbo]
      exact hc.shared.1.same a ha b hb (hai.trans (hid.trans hbi.symm))
    · exact (hcount o).trans_le (hc.shared.2 o)
    · obtain ⟨a, ha, hai, hao⟩ := hback r hr
      rw [← hao]
      exact (hc.each p).same x hx a ha (hai.trans hid)
    · exact (hcount o).trans_lt ((hc.each p).room o ho)
  · refine ⟨⟨hids, hcap⟩, fun p => ?_, fun p q _ => ?_⟩
    · obtain ⟨r, hr⟩ := h0 p
      rw [hr]
      refine ⟨?_, ?_, ?_⟩ <;> exact fun _ hx => by cases hx
    · obtain ⟨r, hr⟩ := h0 p
      rw [hr]
      exact fun _ hx => by cases hx

/-- A request that has ended takes no step. -/
theorem finished_of_reach {p : ι} {o : Outcome} (hp : c₀.loc p = .finished o)
    (h : Reach (next s) anyMove c₀ c) : c.loc p = .finished o := by
  refine h.invariant (I := fun c => c.loc p = .finished o) hp ?_
  intro c m c' hc _ hnext
  cases m with
  | proc q a =>
    obtain ⟨l, w, hstep, rfl⟩ := Config.next_proc.mp hnext
    have hqp : p ≠ q := by
      rintro rfl
      have hact := (withLocks_eq_some.mp hstep).1
      rw [hc] at hact
      cases a <;> cases hact
    exact (Function.update_of_ne hqp ..).trans hc
  | env e =>
    obtain ⟨w, -, rfl⟩ := Config.next_env.mp hnext
    exact hc

/-- **The cap on the subscriptions of a user**, and what a refused request leaves.
From a table within the cap, every state of a run is within it in which each
update finds its row when it saves.  And in every run, a request that has
changed a row is answered and stays so: whoever is refused, by a cap, by a
failing insert or otherwise, has changed none. -/
theorem owner_cap_of_reach (h0 : Fresh c₀) (hids : OneOwner c₀.shared.state)
    (hcap : OwnersCapped s c₀.shared.state.rows) :
    (∀ c, Reach (next s) (OnAdvance FindsRow) c₀ c → OwnersCapped s c.shared.state.rows) ∧
      ∀ c p a c', Reach (next s) anyMove c₀ c → next s (.proc p a) c = some c' →
        c'.shared.state.rows ≠ c.shared.state.rows →
        (∀ now todo, c.loc p ≠ .digest now todo) →
        ∀ c'', Reach (next s) anyMove c' c'' →
          ∃ issued, c''.loc p = .finished (.answered issued) := by
  refine ⟨fun c hc => (counted_of_reach h0 hids hcap hc).shared.2, ?_⟩
  intro c p a c' _ hnext hrows hdigest c'' hc''
  obtain ⟨l, w, hstep, rfl⟩ := Config.next_proc.mp hnext
  have he := act_effect (withLocks_eq_some.mp hstep).1
  obtain ⟨issued, rfl⟩ := he.answered_of_rows_ne hrows hdigest
  exact ⟨issued, finished_of_reach (Function.update_self ..) hc''⟩

end Run

/-! ### A run at the cap, and one over it -/

instance : (l : Phase) → (db : Db) → Decidable (FindsRow l db)
  | .write (.update copy _) _, db => inferInstanceAs (Decidable (∃ r ∈ db.rows, r.id = copy.id))
  | .received _, _ | .countOwned _ _, _ | .checkTarget _, _ | .countOthers _ _, _
  | .write (.create _ _) _, _ | .inserted _ _ _, _ | .delete _, _ | .rotate _, _ | .digest _ _, _
  | .finished _, _ => isTrue trivial

/-- User 1 has all the subscriptions it may have.  One request renames the first
of them, one deletes it, one creates another. -/
def fullOwner : Requests (Fin 3) where
  shared := ⟨⟨(List.range 20).map fun i => mailRow (i + 1) 1 "own@example.org".toList, 21, []⟩, []⟩
  loc
    | 0 => .received (.update 1 1 true { noAttrs with name := some "renamed".toList })
    | 1 => .received (.delete 1 1)
    | 2 => .received (.create 1 { noAttrs with
        name := some "mail".toList
        q := some "lean".toList
        delivery := some .email
        emailTo := some (some "own@example.org".toList) })

theorem fullOwner_fresh : Fresh fullOwner := by
  intro p
  match p with
  | 0 => exact ⟨_, rfl⟩
  | 1 => exact ⟨_, rfl⟩
  | 2 => exact ⟨_, rfl⟩

theorem fullOwner_oneOwner : OneOwner fullOwner.shared.state := by
  have howner : ∀ r ∈ fullOwner.shared.state.rows, r.owner = 1 ∧ r.id < 21 := by
    intro r hr
    obtain ⟨i, hi, rfl⟩ := List.mem_map.mp hr
    exact ⟨rfl, Nat.succ_lt_succ (List.mem_range.mp hi)⟩
  exact ⟨fun r hr => (howner r hr).2,
    fun r hr r' hr' _ => (howner r hr).1.trans (howner r' hr').1.symm⟩

theorem fullOwner_capped : OwnersCapped defaultSettings fullOwner.shared.state.rows := by
  intro o
  exact List.length_filter_le _ _

/-- The new subscription is refused while the first one is renamed. -/
theorem owner_cap_of_reach_refused :
    ∃ c, Reach (next defaultSettings) (OnAdvance FindsRow) fullOwner c ∧
      c.loc 0 = .finished (.answered none) ∧
      c.loc 2 = .finished (.invalid (.plain
        "at most 20 subscriptions per user; delete one first".toList)) ∧
      OwnersCapped defaultSettings c.shared.state.rows := by
  have hrun : ((exec (next defaultSettings) [go 0, go 2, go 0, go 2, go 0] fullOwner).map
        fun c => (c.loc 0, c.loc 2)) =
      some (.finished (.answered none), .finished (.invalid (.plain
        "at most 20 subscriptions per user; delete one first".toList))) := by
    decide
  obtain ⟨c, hreach, hend⟩ := Reach.exists_of_exec (OnAdvance FindsRow) hrun (by decide)
  exact ⟨c, hreach, congrArg Prod.fst hend, congrArg Prod.snd hend,
    (owner_cap_of_reach fullOwner_fresh fullOwner_oneOwner fullOwner_capped).1 c hreach⟩

/-- **A stale update takes a user over the cap.**  It was loaded before its row
was deleted; another row is created in its place; then the full save of the copy
finds no row to update, and inserts it. -/
theorem stale_update_restores_a_row :
    ∃ c, Reach (next defaultSettings) anyMove fullOwner c ∧ Fresh fullOwner ∧
      OneOwner fullOwner.shared.state ∧
      OwnersCapped defaultSettings fullOwner.shared.state.rows ∧
      ¬ OwnersCapped defaultSettings c.shared.state.rows := by
  have hrun : ((exec (next defaultSettings)
      [go 0, go 1, go 1, go 2, go 2, go 2, go 2, go 2, go 2, go 0, go 0] fullOwner).map
        fun c => ownedCount 1 c.shared.state.rows) = some 21 := by
    decide
  obtain ⟨c, hreach, hcount⟩ := Reach.exists_of_exec anyMove hrun (along_anyMove _ _)
  refine ⟨c, hreach, fullOwner_fresh, fullOwner_oneOwner, fullOwner_capped, fun hcap => ?_⟩
  have hle := hcap 1
  rw [hcount] at hle
  exact absurd hle (by decide)

end SubscriptionApi
