/-
The cap on the accounts of a delivery target.

* `Capped` — every key is used by at most `MAX_ACCOUNTS_PER_TARGET` owners;
* `Coherent`, `Vetted` — what a request has established that passed the check;
* `Effect.owners` — who can be an owner of a key after a step;
* `KeepsOwners` — a save that skips the check finds its owner among those that
  use the key already.

Main results: `capped_of_reach` (the cap holds in every run whose unchecked
saves keep owners) and `stale_update_exceeds_cap` (with the default settings, a
stale `PATCH` takes a target over the cap).
-/
import Newsforge.SubscriptionApi

open PyText Tables Runs

namespace SubscriptionApi

open SafeHttp Subscriptions Targets

/-! ### Owners of a key -/

/-- The owners of the rows with a key, one for each row. -/
def owners (key : Text) (rows : List Subscription) : List ℕ :=
  (rows.filter fun r => r.targetKey == key).map Subscription.owner

theorem mem_owners {key : Text} {rows : List Subscription} {o : ℕ} :
    o ∈ owners key rows ↔ ∃ r ∈ rows, r.targetKey = key ∧ r.owner = o := by
  simp [owners, and_assoc]

/-- The invariant of the claimants of a target. -/
def Capped (s : Settings) (rows : List Subscription) : Prop :=
  ∀ key, key ≠ [] → distinctCount (owners key rows) ≤ s.maxAccountsPerTarget

/-- What `_check_target` counts. -/
theorem othersCount_eq (o : ℕ) (key : Text) (rows : List Subscription) :
    othersCount o key rows = distinctCount ((owners key rows).filter fun x => x != o) := by
  rw [othersCount, owners, List.filter_map, List.filter_filter]
  rfl

/-- One owner more than the others. -/
theorem distinctCount_owners_le {o : ℕ} {key : Text} {rows rows' : List Subscription}
    (h : ∀ x ∈ owners key rows', x = o ∨ x ∈ owners key rows) :
    distinctCount (owners key rows') ≤ othersCount o key rows + 1 := by
  rw [othersCount_eq]
  refine distinctCount_le_succ (a := o) fun x hx => ?_
  by_cases hxo : x = o
  · exact .inl hxo
  · rcases h x hx with heq | hmem
    · exact absurd heq hxo
    · exact .inr (List.mem_filter.mpr ⟨hmem, by simpa using hxo⟩)

theorem othersCount_le {o : ℕ} {key : Text} {rows rows' : List Subscription}
    (h : ∀ x ∈ owners key rows', x ∈ owners key rows) :
    othersCount o key rows' ≤ othersCount o key rows := by
  rw [othersCount_eq, othersCount_eq]
  refine distinctCount_le_of_subset fun x hx => ?_
  obtain ⟨hmem, hne⟩ := List.mem_filter.mp hx
  exact List.mem_filter.mpr ⟨h x hmem, hne⟩

/-! ### Requests that passed the check -/

/-- The owner and the key a request has checked; it holds the lock of the key. -/
def Phase.passed : Phase → Option (ℕ × Text)
  | .write j (some key) => some (j.owner, key)
  | .inserted row _ (some key) => some (row.owner, key)
  | _ => none

/-- The keys a request carries belong to what it writes. -/
def Coherent (s : Settings) : Phase → Prop
  | .countOthers j key => j.key s.hosts = .ok key ∧ key ≠ []
  | .write j none => j.unchanged = true ∨ j.key s.hosts = .ok []
  | .write j (some key) => j.key s.hosts = .ok key ∧ key ≠ []
  | .inserted row _ none => row.targetKey = []
  | .inserted row _ (some key) => row.targetKey = key ∧ key ≠ []
  | _ => True

/-- `room`: the key a request has checked is used by fewer others than the limit
allows, up to now. -/
structure Vetted (s : Settings) (l : Phase) (db : Db) : Prop where
  coherent : Coherent s l
  room : ∀ o key, l.passed = some (o, key) → othersCount o key db.rows < s.maxAccountsPerTarget

/-- A request that passed the check holds the advisory lock. -/
theorem Phase.lock_of_passed {s : Settings} {l : Phase} {o : ℕ} {key : Text}
    (h : l.passed = some (o, key)) : Lock.key (s.hashtext key) ∈ l.locks s := by
  cases l with
  | write j passed =>
    cases passed with
    | none => cases h
    | some key' =>
      cases h
      exact List.mem_cons_self
  | inserted row issued passed =>
    cases passed with
    | none => cases h
    | some key' =>
      cases h
      exact List.mem_cons_self
  | _ => cases h

theorem Coherent.passed_ne_nil {s : Settings} {l : Phase} (hl : Coherent s l) {o : ℕ} {key : Text}
    (h : l.passed = some (o, key)) : key ≠ [] := by
  cases l with
  | write j passed =>
    cases passed with
    | none => cases h
    | some key' =>
      cases h
      exact hl.2
  | inserted row issued passed =>
    cases passed with
    | none => cases h
    | some key' =>
      cases h
      exact hl.2
  | _ => cases h

/-! ### Unchecked saves -/

/-- A save that skips the check: the owner whose row it writes already uses the
key it writes. -/
def KeepsOwners (s : Settings) : Phase → Db → Prop
  | .write j none, db =>
    ∀ key ∈ (j.key s.hosts).toOption, key ≠ [] → j.owner ∈ owners key db.rows
  | .rotate copy, db | .digest _ (copy :: _), db =>
    ∀ key ∈ (copy.key s.hosts).toOption, key ≠ [] →
      ∀ r ∈ db.rows, r.id = copy.id → r.owner ∈ owners key db.rows
  | _, _ => True

variable {s : Settings} {l l' : Phase} {db db' : Db}

/-- An update of rows in place adds an owner to a key only if it writes that
key. -/
theorem owners_updateWhere {p : Subscription → Bool} {f : Subscription → Subscription}
    {key : Text} {rows : List Subscription} (howner : ∀ r, (f r).owner = r.owner)
    (hkeep : ∀ r ∈ rows, p r = true → (f r).targetKey = key → r.owner ∈ owners key rows) {o : ℕ}
    (ho : o ∈ owners key (updateWhere p f rows)) : o ∈ owners key rows := by
  obtain ⟨y, hy, hkey, rfl⟩ := mem_owners.mp ho
  obtain ⟨r, hr, rfl⟩ := mem_updateWhere.mp hy
  by_cases hp : p r = true
  · rw [if_pos hp] at hkey ⊢
    rw [howner]
    exact hkeep r hr hp hkey
  · rw [if_neg hp] at hkey ⊢
    exact mem_owners.mpr ⟨r, hr, hkey, rfl⟩

/-- **Owners after a step.**  A key gets a new owner only through a request that
has checked it. -/
theorem Effect.owners (h : Effect s l db l' db') (hl : Coherent s l)
    (hkeeps : KeepsOwners s l db ∨ db' = db) {key : Text} (hkey : key ≠ []) {o : ℕ}
    (ho : o ∈ SubscriptionApi.owners key db'.rows) :
    o ∈ SubscriptionApi.owners key db.rows ∨ l.passed = some (o, key) := by
  rcases hkeeps with hkeeps | hsame
  swap
  · rw [hsame] at ho
    exact .inl ho
  cases h with
  | committed row issued passed =>
    obtain ⟨r, hr, hrkey, rfl⟩ := mem_owners.mp ho
    rcases List.mem_append.mp hr with hr | hr
    · exact .inl (mem_owners.mpr ⟨r, hr, hrkey, rfl⟩)
    · rw [List.mem_singleton] at hr
      subst hr
      -- the new row has the key its request checked, or none
      cases passed with
      | none => exact absurd (hrkey.symm.trans hl) hkey
      | some key' =>
        have hkey' : key' = key := hl.1.symm.trans hrkey
        exact .inr (by rw [Phase.passed, hkey'])
  | saved copy attrs passed key' fresh hkey' =>
    obtain ⟨r, hr, hrkey, rfl⟩ := mem_owners.mp ho
    rcases mem_put hr with rfl | ⟨hr, -⟩
    · rw [Job.written_targetKey] at hrkey
      subst hrkey
      rw [Job.written_owner]
      -- an update that skipped the check writes a key its owner uses already
      cases passed with
      | none => exact .inl (hkeeps key' (by rw [hkey']; rfl) hkey)
      | some key'' =>
        have heq : key'' = key' := Except.ok.inj (hl.1.symm.trans hkey')
        exact .inr (by rw [Phase.passed, heq])
    · exact .inl (mem_owners.mpr ⟨r, hr, hrkey, rfl⟩)
  | deleted copy =>
    obtain ⟨r, hr, hrkey, rfl⟩ := mem_owners.mp ho
    exact .inl (mem_owners.mpr ⟨r, (List.mem_filter.mp hr).1, hrkey, rfl⟩)
  | rotated copy key' fresh hkey' =>
    refine .inl (owners_updateWhere ?_ ?_ ho)
    · exact fun _ => rfl
    · rintro r hr hid rfl
      exact hkeeps key' (by rw [hkey']; rfl) hkey r hr (by simpa using hid)
  | digested now copy todo key' hkey' =>
    refine .inl (owners_updateWhere ?_ ?_ ho)
    · exact fun _ => rfl
    · rintro r hr hid rfl
      exact hkeeps key' (by rw [hkey']; rfl) hkey r hr (by simpa using hid)
  | ended | counting | counted | loaded | skipping | locking | checked | inserting | deleting
  | rotating | digesting => exact .inl ho

/-! ### The cap along a run -/

theorem Effect.coherent (h : Effect s l db l' db') (hl : Coherent s l) : Coherent s l' := by
  cases h with
  | skipping j hskip => exact hskip
  | locking j key hkey hne => exact ⟨hkey, hne⟩
  | checked j key hroom => exact hl
  | inserting owner attrs passed key fresh hkey =>
    cases passed with
    | none =>
      rcases hl with hu | hnil
      · cases hu
      · exact (Job.written_targetKey _ _ _ _).trans (Except.ok.inj (hkey.symm.trans hnil))
    | some key' =>
      exact ⟨(Job.written_targetKey _ _ _ _).trans (Except.ok.inj (hkey.symm.trans hl.1)), hl.2⟩
  | ended | counting | counted | loaded | committed | saved | deleting | deleted | rotating
  | rotated | digesting | digested => trivial

/-- Whoever has passed after a step passed in it, or had passed before. -/
theorem Effect.room (h : Effect s l db l' db') {o : ℕ} {key : Text}
    (hpassed : l'.passed = some (o, key)) :
    db'.rows = db.rows ∧ (othersCount o key db.rows < s.maxAccountsPerTarget ∨
      l.passed = some (o, key)) := by
  cases h with
  | checked j key' hroom =>
    cases hpassed
    exact ⟨rfl, .inl hroom⟩
  | inserting owner attrs passed key' fresh hkey =>
    cases passed with
    | none => cases hpassed
    | some key'' =>
      rw [Phase.passed, Job.written_owner] at hpassed
      exact ⟨rfl, .inr hpassed⟩
  | ended | counting | counted | loaded | skipping | locking | committed | saved | deleting
  | deleted | rotating | rotated | digesting | digested => cases hpassed

/-- The process that moves keeps the cap. -/
theorem Effect.capped (h : Effect s l db l' db') (hl : Vetted s l db)
    (hkeeps : KeepsOwners s l db ∨ db' = db) (hcap : Capped s db.rows) :
    Capped s db'.rows := by
  intro key hkey
  by_cases hp : ∃ o, l.passed = some (o, key)
  · -- the step may add the owner that passed, and there is room for one
    obtain ⟨o, hp⟩ := hp
    have hle : distinctCount (SubscriptionApi.owners key db'.rows) ≤
        othersCount o key db.rows + 1 := by
      refine distinctCount_owners_le fun x hx => ?_
      rcases h.owners hl.coherent hkeeps hkey hx with hx | hx
      · exact .inr hx
      · rw [hp] at hx
        cases hx
        exact .inl rfl
    exact Nat.le_trans hle (hl.room o key hp)
  · -- it adds nobody to another key
    refine Nat.le_trans (distinctCount_le_of_subset fun x hx => ?_) (hcap key hkey)
    rcases h.owners hl.coherent hkeeps hkey hx with hx | hx
    · exact hx
    · exact absurd ⟨x, hx⟩ hp

/-- It takes no room from a request that has passed: both would hold the lock of
the key. -/
theorem Vetted.effect_other {m : Phase} (hm : Vetted s m db) (hl : Vetted s l db)
    (hlocks : NoCommon (Phase.locks s) l m) (h : Effect s l db l' db')
    (hkeeps : KeepsOwners s l db ∨ db' = db) : Vetted s m db' := by
  refine ⟨hm.coherent, fun o key hpassed => ?_⟩
  have hkey := hm.coherent.passed_ne_nil hpassed
  refine Nat.lt_of_le_of_lt (othersCount_le fun x hx => ?_) (hm.room o key hpassed)
  rcases h.owners hl.coherent hkeeps hkey hx with hx | hx
  · exact hx
  · exact absurd (Phase.lock_of_passed hpassed) (hlocks _ (Phase.lock_of_passed hx))

/-- A notification gives a key no new owner. -/
theorem owners_notify {e : Notified} (h : notify e db = some db') {key : Text} {o : ℕ}
    (ho : o ∈ owners key db'.rows) : o ∈ owners key db.rows := by
  cases h
  refine owners_updateWhere ?_ ?_ ho
  · exact fun _ => rfl
  · exact fun r hr _ hkey => mem_owners.mpr ⟨r, hr, hkey, rfl⟩

section Run

variable {ι : Type*} [DecidableEq ι] {c₀ c : Requests ι}

omit [DecidableEq ι] in
theorem Fresh.vetted (h0 : Fresh c₀) (p : ι) : Vetted s (c₀.loc p) c₀.shared.state := by
  obtain ⟨r, hr⟩ := h0 p
  rw [hr]
  exact ⟨trivial, fun o key h => by cases h⟩

/-- **The cap holds along runs that keep owners.**  From a capped table, every
state of a run is capped in which each save without the check finds the owner
of its row among those that use the key it writes. -/
theorem capped_of_reach (h0 : Fresh c₀) (hcap : Capped s c₀.shared.state.rows)
    (h : Reach (next s) (OnAdvance (KeepsOwners s)) c₀ c) : Capped s c.shared.state.rows := by
  have hmeets : Holds (fun db => Capped s db.rows) (Vetted s) (fun _ _ => True) c₀ :=
    ⟨hcap, h0.vetted, fun _ _ _ => trivial⟩
  refine (invariant_of_acts (fun _ _ _ => trivial) ?_ ?_ ?_ ?_ h0 hmeets h).shared
  · intro c p a l db hc hok hact
    have he := act_effect hact
    have hkeeps := hok.of_act hact
    refine ⟨he.capped (hc.each p) hkeeps hc.shared, he.coherent (hc.each p).coherent, ?_⟩
    intro o key hpassed
    obtain ⟨hrows, hroom | hbefore⟩ := he.room hpassed
    · rw [hrows]
      exact hroom
    · rw [hrows]
      exact (hc.each p).room o key hbefore
  · intro c p a l db q hc hex hok hact hq
    exact (hc.each q).effect_other (hc.each p) (hex p q hq.symm) (act_effect hact)
      (hok.of_act hact)
  · exact fun _ _ _ _ _ _ _ _ _ _ => trivial
  · intro c e db hc henv
    refine ⟨fun key hkey => ?_, fun p => ⟨(hc.each p).coherent, fun o key hpassed => ?_⟩⟩
    · exact Nat.le_trans (distinctCount_le_of_subset fun x hx => owners_notify henv hx)
        (hc.shared key hkey)
    · exact Nat.lt_of_le_of_lt (othersCount_le fun x hx => owners_notify henv hx)
        ((hc.each p).room o key hpassed)

end Run

/-! ### A run within the cap, and one over it -/

instance (s : Settings) : (l : Phase) → (db : Db) → Decidable (KeepsOwners s l db)
  | .write j none, db => inferInstanceAs (Decidable
      (∀ key ∈ (j.key s.hosts).toOption, key ≠ [] → j.owner ∈ owners key db.rows))
  | .rotate copy, db | .digest _ (copy :: _), db => inferInstanceAs (Decidable
      (∀ key ∈ (copy.key s.hosts).toOption, key ≠ [] →
        ∀ r ∈ db.rows, r.id = copy.id → r.owner ∈ owners key db.rows))
  | .received _, _ | .countOwned _ _, _ | .checkTarget _, _ | .countOthers _ _, _
  | .write _ (some _), _ | .inserted _ _ _, _ | .delete _, _ | .digest _ [], _
  | .finished _, _ => isTrue trivial

def sharedAddress : Text := "list@example.org".toList

/-- Five accounts use the address; account 1 renames its subscription and moves
it elsewhere, account 6 creates one. -/
def fullTarget : Requests (Fin 3) where
  shared := ⟨⟨[mailRow 1 1 sharedAddress, mailRow 2 2 sharedAddress, mailRow 3 3 sharedAddress,
    mailRow 4 4 sharedAddress, mailRow 5 5 sharedAddress], 6, []⟩, []⟩
  loc
    | 0 => .received (.update 1 1 true { noAttrs with name := some "renamed".toList })
    | 1 => .received (.update 1 1 true
        { noAttrs with emailTo := some (some "own@example.org".toList) })
    | 2 => .received (.create 6 { noAttrs with
        name := some "mail".toList
        q := some "lean".toList
        delivery := some .email
        emailTo := some (some sharedAddress) })

theorem fullTarget_fresh : Fresh fullTarget := by
  intro p
  match p with
  | 0 => exact ⟨_, rfl⟩
  | 1 => exact ⟨_, rfl⟩
  | 2 => exact ⟨_, rfl⟩

theorem fullTarget_capped : Capped defaultSettings fullTarget.shared.state.rows := by
  intro key _
  have hlen : (owners key fullTarget.shared.state.rows).length ≤
      fullTarget.shared.state.rows.length := by
    rw [owners, List.length_map]
    exact List.length_filter_le _ _
  exact Nat.le_trans (distinctCount_le_length _) hlen

/-- The sixth account is refused while the subscription is renamed. -/
theorem capped_of_reach_refused :
    ∃ c, Reach (next defaultSettings) (OnAdvance (KeepsOwners defaultSettings)) fullTarget c ∧
      c.loc 0 = .finished (.answered none) ∧
      c.loc 2 = .finished (.invalid (.field "email_to".toList
        "this target is already used by 5 other accounts".toList)) ∧
      Capped defaultSettings c.shared.state.rows := by
  have hrun : ((exec (next defaultSettings)
      [go 0, go 2, go 2, go 0, go 2, go 0, go 2] fullTarget).map
        fun c => (c.loc 0, c.loc 2)) =
      some (.finished (.answered none), .finished (.invalid (.field "email_to".toList
        "this target is already used by 5 other accounts".toList))) := by
    decide
  obtain ⟨c, hreach, hend⟩ :=
    Reach.exists_of_exec (OnAdvance (KeepsOwners defaultSettings)) hrun (by decide)
  exact ⟨c, hreach, congrArg Prod.fst hend, congrArg Prod.snd hend,
    capped_of_reach fullTarget_fresh fullTarget_capped hreach⟩

/-- **A stale update takes a target over the cap.**  It was loaded before its
owner moved the subscription elsewhere, sees its own target unchanged, skips the
check, and writes the old target back when a sixth account has it. -/
theorem stale_update_exceeds_cap :
    ∃ c, Reach (next defaultSettings) anyMove fullTarget c ∧ Fresh fullTarget ∧
      Capped defaultSettings fullTarget.shared.state.rows ∧
      ¬ Capped defaultSettings c.shared.state.rows := by
  have hrun : ((exec (next defaultSettings)
      [go 0, go 1, go 1, go 1, go 1, go 2, go 2, go 2, go 2, go 2, go 2, go 0, go 0]
        fullTarget).map
        fun c => distinctCount (owners (emailKey asciiTables sharedAddress)
          c.shared.state.rows)) = some 6 := by
    decide
  obtain ⟨c, hreach, hsix⟩ := Reach.exists_of_exec anyMove hrun (along_anyMove _ _)
  refine ⟨c, hreach, fullTarget_fresh, fullTarget_capped, fun hcap => ?_⟩
  have hle := hcap (emailKey asciiTables sharedAddress) (by decide)
  rw [hsix] at hle
  exact absurd hle (by decide)

end SubscriptionApi
