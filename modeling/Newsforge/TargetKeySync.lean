/-
`target_key` and the target of a row.

* `Synced` — the key of every stored row is the key of its target;
* `KeepsTargets` — a partial save finds a target with the key of the copy it
  was loaded as.

Main results: `synced_of_reach` (no drift in runs whose partial saves find such
targets) and `rotation_writes_a_stale_key` (rotating the secret while the
target changes leaves a row with the key of its old target).
-/
import Newsforge.SubscriptionApi

open PyText Tables Runs

namespace SubscriptionApi

open SafeHttp Subscriptions Targets

/-- The stored keys are kept in sync. -/
def Synced (s : Settings) (rows : List Subscription) : Prop := ∀ r ∈ rows, r.InSync s.hosts

/-- A row that is not committed yet is in sync too. -/
def PendingSynced (s : Settings) : Phase → Prop
  | .inserted row _ _ => row.InSync s.hosts
  | _ => True

/-- A partial save writes the key of its copy; the stored row has a target with
that key. -/
def KeepsTargets (s : Settings) : Phase → Db → Prop
  | .rotate copy, db | .digest _ (copy :: _), db =>
    ∀ r ∈ db.rows, r.id = copy.id → r.key s.hosts = copy.key s.hosts
  | _, _ => True

variable {s : Settings} {l l' : Phase} {db db' : Db}

/-- A saved row is in sync, whatever job wrote it. -/
theorem inSync_written {j : Job} {key : Text} (hkey : j.key s.hosts = .ok key) (id : ℕ)
    (fresh : Secret) : (j.written id key fresh).1.InSync s.hosts := by
  rw [Subscription.InSync, Job.written_key, Job.written_targetKey]
  exact hkey

/-- One step keeps the keys in sync. -/
theorem Effect.synced (h : Effect s l db l' db') (hl : PendingSynced s l)
    (hkeeps : KeepsTargets s l db ∨ db' = db) (hsync : Synced s db.rows) :
    Synced s db'.rows := by
  rcases hkeeps with hkeeps | hsame
  swap
  · rw [hsame]
    exact hsync
  refine h.forall_rows hsync ?_ ?_ ?_ ?_
  · rintro row issued passed rfl
    exact hl
  · exact fun copy attrs passed key fresh _ hkey => inSync_written hkey copy.id fresh
  · -- the row keeps its target, and gets the key of the copy
    rintro copy key secret rfl hkey r hr hid
    show r.key s.hosts = .ok key
    exact (hkeeps r hr hid).trans hkey
  · rintro now copy todo key rfl hkey r hr hid
    show r.key s.hosts = .ok key
    exact (hkeeps r hr hid).trans hkey

theorem Effect.pendingSynced (h : Effect s l db l' db') : PendingSynced s l' := by
  cases h with
  | inserting owner attrs passed key fresh hkey => exact inSync_written hkey _ fresh
  | ended | counting | counted | loaded | skipping | locking | checked | committed | saved
  | deleting | deleted | rotating | rotated | digesting | digested => trivial

section Run

variable {ι : Type*} [DecidableEq ι] {c₀ c : Requests ι}

omit [DecidableEq ι] in
theorem Fresh.pendingSynced (h0 : Fresh c₀) (p : ι) : PendingSynced s (c₀.loc p) := by
  obtain ⟨r, hr⟩ := h0 p
  rw [hr]
  trivial

/-- **The key does not drift along runs that keep targets.**  In every state of
a run from a table in sync, the key of each committed row is the key of its
target, if each partial save finds a row whose target has the key of the copy
it saves. -/
theorem synced_of_reach (h0 : Fresh c₀) (hsync : Synced s c₀.shared.state.rows)
    (h : Reach (next s) (OnAdvance (KeepsTargets s)) c₀ c) : Synced s c.shared.state.rows := by
  have hmeets : Holds (fun db => Synced s db.rows) (fun l _ => PendingSynced s l)
      (fun _ _ => True) c₀ := ⟨hsync, h0.pendingSynced, fun _ _ _ => trivial⟩
  refine (invariant_of_acts (fun _ _ _ => trivial) ?_ ?_ ?_ ?_ h0 hmeets h).shared
  · intro c p a l db hc hok hact
    have he := act_effect hact
    exact ⟨he.synced (hc.each p) (hok.of_act hact) hc.shared, he.pendingSynced⟩
  · exact fun c p a l db q hc _ _ _ _ => hc.each q
  · exact fun _ _ _ _ _ _ _ _ _ _ => trivial
  · intro c e db hc henv
    cases henv
    -- a notification writes `last_notified_at` only
    exact ⟨forall_updateWhere hc.shared fun r hr _ => hc.shared r hr, hc.each⟩

/-- Whatever the requests, the key of every stored target can be computed: a
partial save writes no target, and a full one has computed the key. -/
theorem hasKey_of_reach {ok : Requests ι → Step ι → Prop} (h0 : Fresh c₀)
    (hkeys : ∀ r ∈ c₀.shared.state.rows, r.HasKey s.hosts) (h : Reach (next s) ok c₀ c) :
    ∀ r ∈ c.shared.state.rows, r.HasKey s.hosts := by
  have hmeets : Holds (fun db => ∀ r ∈ db.rows, r.HasKey s.hosts) (fun l _ => PendingSynced s l)
      (fun _ _ => True) c₀ :=
    ⟨hkeys, h0.pendingSynced, fun _ _ _ => trivial⟩
  refine (invariant_of_acts (fun _ _ _ => trivial) ?_ ?_ ?_ ?_ h0 hmeets h).shared
  · intro c p a l db hc _ hact
    have he := act_effect hact
    refine ⟨he.forall_rows hc.shared ?_ ?_ ?_ ?_, he.pendingSynced⟩
    · intro row issued passed hl
      have hp := hc.each p
      rw [hl] at hp
      exact ⟨row.targetKey, hp⟩
    · exact fun copy attrs passed key fresh _ hkey =>
        ⟨key, (Job.written_key _ _ _ _ _).trans hkey⟩
    · exact fun copy key secret _ _ r hr _ => hc.shared r hr
    · exact fun now copy todo key _ _ r hr _ => hc.shared r hr
  · exact fun c p a l db q hc _ _ _ _ => hc.each q
  · exact fun _ _ _ _ _ _ _ _ _ _ => trivial
  · intro c e db hc henv
    cases henv
    exact ⟨forall_updateWhere hc.shared fun r hr _ => hc.shared r hr, hc.each⟩

end Run

/-! ### A run in sync, and one with a drift -/

instance (s : Settings) : (l : Phase) → (db : Db) → Decidable (KeepsTargets s l db)
  | .rotate copy, db | .digest _ (copy :: _), db => inferInstanceAs (Decidable
      (∀ r ∈ db.rows, r.id = copy.id → r.key s.hosts = copy.key s.hosts))
  | .received _, _ | .countOwned _ _, _ | .checkTarget _, _ | .countOthers _ _, _
  | .write _ _, _ | .inserted _ _ _, _ | .delete _, _ | .digest _ [], _
  | .finished _, _ => isTrue trivial

/-- One webhook; its owner rotates the secret and moves it to another URL. -/
def movingHook : Requests (Fin 2) where
  shared := ⟨⟨[hookRow 1 1 "https://a.example/in".toList "first".toList], 2, []⟩, []⟩
  loc
    | 0 => .received (.rotateSecret 1 1)
    | 1 => .received (.update 1 1 true
        { noAttrs with webhookUrl := some (some "https://b.example/in".toList) })

theorem movingHook_fresh : Fresh movingHook := by
  intro p
  match p with
  | 0 => exact ⟨_, rfl⟩
  | 1 => exact ⟨_, rfl⟩

instance (t : HostTables) (r : Subscription) : Decidable (r.InSync t) :=
  inferInstanceAs (Decidable (r.key t = .ok r.targetKey))

theorem movingHook_synced : Synced defaultSettings movingHook.shared.state.rows := by
  unfold Synced
  decide

/-- The secret is rotated before the URL is changed. -/
theorem synced_of_reach_rotated :
    ∃ c, Reach (next defaultSettings) (OnAdvance (KeepsTargets defaultSettings)) movingHook c ∧
      c.loc 0 = .finished (.answered (some "fresh".toList)) ∧
      c.loc 1 = .finished (.answered none) ∧ Synced defaultSettings c.shared.state.rows := by
  have hrun : ((exec (next defaultSettings) [go 0, go 1, go 0, go 1, go 1, go 1] movingHook).map
      fun c => (c.loc 0, c.loc 1)) =
      some (.finished (.answered (some "fresh".toList)), .finished (.answered none)) := by
    decide
  obtain ⟨c, hreach, hend⟩ :=
    Reach.exists_of_exec (OnAdvance (KeepsTargets defaultSettings)) hrun (by decide)
  exact ⟨c, hreach, congrArg Prod.fst hend, congrArg Prod.snd hend,
    synced_of_reach movingHook_fresh movingHook_synced hreach⟩

/-- **A rotation writes a stale key.**  It loaded the row before the URL was
changed, and `save` puts the key of that copy under the new URL. -/
theorem rotation_writes_a_stale_key :
    ∃ c, Reach (next defaultSettings) anyMove movingHook c ∧ Fresh movingHook ∧
      Synced defaultSettings movingHook.shared.state.rows ∧
      ¬ Synced defaultSettings c.shared.state.rows := by
  have hrun : ((exec (next defaultSettings) [go 0, go 1, go 1, go 1, go 1, go 0] movingHook).map
      fun c => c.shared.state.rows.all fun r => decide (r.InSync asciiTables)) = some false := by
    decide
  obtain ⟨c, hreach, hdrift⟩ := Reach.exists_of_exec anyMove hrun (along_anyMove _ _)
  refine ⟨c, hreach, movingHook_fresh, movingHook_synced, fun hsync => ?_⟩
  obtain ⟨r, hr, hno⟩ := List.all_eq_false.mp hdrift
  exact hno (decide_eq_true (hsync r hr))

end SubscriptionApi
