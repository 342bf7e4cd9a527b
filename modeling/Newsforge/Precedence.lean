/-
The longest rule decides, and on a tie a rule that allows.

* `pick`, `decision` — the loop that keeps one best rule;
* `Best` — what the best rule is, after any number of rules;
* `Allowed` — every rule against has one for that is at least as long; only the
  set of the rules matters.

Main results: `decision_iff`; `allowed_append_iff`, when more rules leave the
decision as it is; `Steady.allowed_iff` and `exists_tipping`, when longer rules
do.
-/
import Mathlib.Data.List.Forall2
import Mathlib.Order.Lattice
import Mathlib.Tactic.Common

namespace Precedence

variable {ρ κ : Type*} [LinearOrder κ] (len : ρ → κ) (allow : ρ → Bool)

/-- The better of the best rule so far and the next one. -/
def pick (best : Option ρ) (r : ρ) : Option ρ :=
  match best with
  | none => some r
  | some b => if len b < len r || (len r = len b && allow r) then some r else some b

/-- What the best rule says; no rule allows. -/
def decision (rules : List ρ) : Bool := ((rules.foldl (pick len allow) none).map allow).getD true

/-- The best of some rules. -/
structure Best (rules : List ρ) (b : ρ) : Prop where
  mem : b ∈ rules
  longest : ∀ r ∈ rules, len r ≤ len b
  tie : ∀ r ∈ rules, len r = len b → allow r = true → allow b = true

/-- Every rule against has one for that is at least as long. -/
def Allowed (rules : List ρ) : Prop :=
  ∀ d ∈ rules, allow d = false → ∃ a ∈ rules, allow a = true ∧ len d ≤ len a

variable {len allow} {rules more : List ρ}

/-! ### The loop -/

/-- The best rule and one more. -/
theorem Best.pick {b : ρ} (h : Best len allow rules b) (r : ρ) :
    ∃ b', pick len allow (some b) r = some b' ∧ Best len allow (rules ++ [r]) b' := by
  by_cases hlt : len b < len r
  · -- strictly longer than all before it
    refine ⟨r, by simp [Precedence.pick, hlt], by simp, ?_, ?_⟩
    · intro q hq
      rcases List.mem_append.mp hq with hq | hq
      · exact ((h.longest q hq).trans_lt hlt).le
      · rw [List.mem_singleton.mp hq]
    · intro q hq hlen hallow
      rcases List.mem_append.mp hq with hq | hq
      · exact absurd hlen ((h.longest q hq).trans_lt hlt).ne
      · rwa [← List.mem_singleton.mp hq]
  · by_cases htie : len r = len b ∧ allow r = true
    · refine ⟨r, by simp [Precedence.pick, htie], by simp, ?_, fun _ _ _ _ => htie.2⟩
      intro q hq
      rcases List.mem_append.mp hq with hq | hq
      · exact htie.1 ▸ h.longest q hq
      · rw [List.mem_singleton.mp hq]
    · refine ⟨b, if_neg (by simpa [hlt] using htie), ?_, ?_, ?_⟩
      · exact List.mem_append_left _ h.mem
      · intro q hq
        rcases List.mem_append.mp hq with hq | hq
        · exact h.longest q hq
        · exact List.mem_singleton.mp hq ▸ not_lt.mp hlt
      · intro q hq hlen hallow
        rcases List.mem_append.mp hq with hq | hq
        · exact h.tie q hq hlen hallow
        · rw [List.mem_singleton.mp hq] at hlen hallow
          exact absurd ⟨hlen, hallow⟩ htie

theorem Best.foldl {b : ρ} (h : Best len allow rules b) (more : List ρ) :
    ∃ b', more.foldl (Precedence.pick len allow) (some b) = some b' ∧
      Best len allow (rules ++ more) b' := by
  induction more generalizing rules b with
  | nil => exact ⟨b, rfl, by rwa [List.append_nil]⟩
  | cons r more ih =>
    obtain ⟨b₁, hpick, hbest⟩ := h.pick r
    obtain ⟨b₂, hfold, hbest⟩ := ih hbest
    refine ⟨b₂, by rw [List.foldl_cons, hpick, hfold], ?_⟩
    rwa [List.append_assoc] at hbest

theorem exists_best (len : ρ → κ) (allow : ρ → Bool) (hne : rules ≠ []) :
    ∃ b, rules.foldl (pick len allow) none = some b ∧ Best len allow rules b := by
  cases rules with
  | nil => exact absurd rfl hne
  | cons r rules =>
    have hfirst : Best len allow [r] r := by
      refine ⟨List.mem_singleton_self r, ?_, ?_⟩
      · intro q hq
        rw [List.mem_singleton.mp hq]
      · intro q hq _ hallow
        rwa [← List.mem_singleton.mp hq]
    exact hfirst.foldl rules

theorem Best.allow_iff {b : ρ} (h : Best len allow rules b) :
    allow b = true ↔ Allowed len allow rules := by
  constructor
  · intro hb d hd _
    exact ⟨b, h.mem, hb, h.longest d hd⟩
  · intro hall
    by_contra hb
    obtain ⟨a, ha, hallow, hle⟩ := hall b h.mem (by simpa using hb)
    exact hb (h.tie a ha (le_antisymm (h.longest a ha) hle) hallow)

/-- The loop decides by the set of the rules. -/
theorem decision_iff (rules : List ρ) :
    decision len allow rules = true ↔ Allowed len allow rules := by
  by_cases hne : rules = []
  · subst hne
    simp [decision, Allowed]
  · obtain ⟨b, hfold, hbest⟩ := exists_best len allow hne
    rw [decision, hfold]
    exact hbest.allow_iff

/-- Among the longest rules one allows. -/
theorem allowed_iff_longest :
    Allowed len allow rules ↔
      rules = [] ∨ ∃ a ∈ rules, allow a = true ∧ ∀ r ∈ rules, len r ≤ len a := by
  constructor
  · intro hall
    by_cases hne : rules = []
    · exact .inl hne
    · obtain ⟨b, -, hbest⟩ := exists_best len allow hne
      exact .inr ⟨b, hbest.mem, hbest.allow_iff.mpr hall, hbest.longest⟩
  · rintro (rfl | ⟨a, ha, hallow, hlongest⟩)
    · intro d hd
      exact absurd hd List.not_mem_nil
    · intro d hd _
      exact ⟨a, ha, hallow, hlongest d hd⟩

/-- Among the longest rules none allows. -/
theorem not_allowed_iff_longest :
    ¬ Allowed len allow rules ↔
      ∃ d ∈ rules, allow d = false ∧ (∀ r ∈ rules, len r ≤ len d) ∧
        ∀ a ∈ rules, allow a = true → len a < len d := by
  constructor
  · intro hnot
    have hne : rules ≠ [] := by
      rintro rfl
      exact hnot (allowed_iff_longest.mpr (.inl rfl))
    obtain ⟨b, -, hbest⟩ := exists_best len allow hne
    have hb : allow b = false := by
      rw [← Bool.not_eq_true, hbest.allow_iff]
      exact hnot
    refine ⟨b, hbest.mem, hb, hbest.longest, ?_⟩
    intro a ha hallow
    refine lt_of_le_of_ne (hbest.longest a ha) fun hlen => ?_
    exact Bool.false_ne_true (hb ▸ hbest.tie a ha hlen hallow)
  · rintro ⟨d, hd, hdis, -, hlonger⟩ hall
    obtain ⟨a, ha, hallow, hle⟩ := hall d hd hdis
    exact absurd hle (not_le.mpr (hlonger a ha hallow))

/-- Rules with the same members decide the same. -/
theorem Allowed.congr {rules' : List ρ} (h : ∀ r, r ∈ rules ↔ r ∈ rules') :
    Allowed len allow rules ↔ Allowed len allow rules' := by
  simp only [Allowed, h]

/-! ### More rules -/

/-- When more rules change nothing: each one against is overruled, or the first
rules deny anyway; each one for is overruled, or the first rules allow anyway. -/
theorem allowed_append_iff :
    (Allowed len allow rules ↔ Allowed len allow (rules ++ more)) ↔
      (∀ d ∈ more, allow d = false →
        (∃ a ∈ rules ++ more, allow a = true ∧ len d ≤ len a) ∨
          ∃ d' ∈ rules, allow d' = false ∧ ∀ a ∈ rules, allow a = true → len a < len d') ∧
      ∀ a ∈ more, allow a = true →
        (∃ d ∈ rules ++ more, allow d = false ∧ len a < len d) ∨
          ∀ d' ∈ rules, allow d' = false → ∃ a' ∈ rules, allow a' = true ∧ len d' ≤ len a' := by
  constructor
  · intro h
    refine ⟨?_, ?_⟩
    · intro d hd hdis
      by_cases hall : Allowed len allow (rules ++ more)
      · exact .inl (hall d (List.mem_append_right _ hd) hdis)
      · obtain ⟨d', hd', hdis', -, hlonger⟩ := not_allowed_iff_longest.mp (mt h.mp hall)
        exact .inr ⟨d', hd', hdis', hlonger⟩
    · intro a ha hallow
      by_cases hall : Allowed len allow (rules ++ more)
      · exact .inr (h.mpr hall)
      · obtain ⟨d, hd, hdis, -, hlonger⟩ := not_allowed_iff_longest.mp hall
        exact .inl ⟨d, hd, hdis, hlonger a (List.mem_append_right _ ha) hallow⟩
  · rintro ⟨hagainst, hfor⟩
    constructor
    · intro hall d hd hdis
      rcases List.mem_append.mp hd with hd | hd
      · obtain ⟨a, ha, hallow, hle⟩ := hall d hd hdis
        exact ⟨a, List.mem_append_left _ ha, hallow, hle⟩
      · rcases hagainst d hd hdis with hover | ⟨d', hd', hdis', hlonger⟩
        · exact hover
        · obtain ⟨a, ha, hallow, hle⟩ := hall d' hd' hdis'
          exact absurd hle (not_le.mpr (hlonger a ha hallow))
    · intro hall
      rcases allowed_iff_longest.mp hall with hnil | ⟨a, ha, hallow, hlongest⟩
      · rw [(List.append_eq_nil_iff.mp hnil).1]
        exact allowed_iff_longest.mpr (.inl rfl)
      rcases List.mem_append.mp ha with ha | ha
      · exact allowed_iff_longest.mpr (.inr ⟨a, ha, hallow, fun r hr =>
          hlongest r (List.mem_append_left _ hr)⟩)
      · -- the longest rule is one of the others
        rcases hfor a ha hallow with ⟨d, hd, -, hlt⟩ | hfirst
        · exact absurd (hlongest d hd) (not_le.mpr hlt)
        · exact hfirst

/-! ### Longer rules -/

variable (len allow) in
/-- No rule can be made long enough to turn the decision: `reach` is how long a rule
can become. -/
def Steady (reach : ρ → κ) (rules : List ρ) : Prop :=
  rules = [] ∨
    (∃ a ∈ rules, allow a = true ∧ ∀ d ∈ rules, allow d = false → reach d ≤ len a) ∨
      ∃ d ∈ rules, allow d = false ∧ ∀ a ∈ rules, allow a = true → reach a < len d

variable (len allow) in
/-- A rule made longer, within its reach. -/
structure Stretched (reach : ρ → κ) (r r' : ρ) : Prop where
  allow_eq : allow r' = allow r
  le : len r ≤ len r'
  le_reach : len r' ≤ reach r

variable {reach : ρ → κ}

theorem exists_mem_of_forall₂ {R : ρ → ρ → Prop} {l l' : List ρ} (h : List.Forall₂ R l l') :
    (∀ r ∈ l, ∃ r' ∈ l', R r r') ∧ ∀ r' ∈ l', ∃ r ∈ l, R r r' := by
  induction h with
  | nil => simp
  | cons hr _ ih =>
    refine ⟨?_, ?_⟩
    · intro r hmem
      rcases List.mem_cons.mp hmem with rfl | hmem
      · exact ⟨_, List.mem_cons_self, hr⟩
      · obtain ⟨r', hr', hrel⟩ := ih.1 r hmem
        exact ⟨r', List.mem_cons_of_mem _ hr', hrel⟩
    · intro r' hmem
      rcases List.mem_cons.mp hmem with rfl | hmem
      · exact ⟨_, List.mem_cons_self, hr⟩
      · obtain ⟨r, hr, hrel⟩ := ih.2 r' hmem
        exact ⟨r, List.mem_cons_of_mem _ hr, hrel⟩

/-- Steady rules decide the same, however they are stretched. -/
theorem Steady.allowed_iff {rules' : List ρ} (h : Steady len allow reach rules)
    (hr : List.Forall₂ (Stretched len allow reach) rules rules') :
    Allowed len allow rules ↔ Allowed len allow rules' := by
  obtain ⟨hto, hfrom⟩ := exists_mem_of_forall₂ hr
  rcases h with rfl | ⟨a, ha, hallow, hreach⟩ | ⟨d, hd, hdis, hreach⟩
  · rw [List.forall₂_nil_left_iff.mp hr]
  · -- one that allows stays at least as long as any against it
    obtain ⟨a', ha', hsa⟩ := hto a ha
    refine iff_of_true ?_ ?_
    · intro d hd hdis
      obtain ⟨d', -, hsd⟩ := hto d hd
      exact ⟨a, ha, hallow, (hsd.le.trans hsd.le_reach).trans (hreach d hd hdis)⟩
    · intro d' hd' hdis
      obtain ⟨d, hd, hsd⟩ := hfrom d' hd'
      refine ⟨a', ha', hsa.allow_eq.trans hallow, (hsd.le_reach.trans ?_).trans hsa.le⟩
      exact hreach d hd (hsd.allow_eq ▸ hdis)
  · obtain ⟨d', hd', hsd⟩ := hto d hd
    refine iff_of_false ?_ ?_
    · intro hall
      obtain ⟨a, ha, hallow, hle⟩ := hall d hd hdis
      obtain ⟨a', -, hsa⟩ := hto a ha
      exact absurd (hle.trans (hsa.le.trans hsa.le_reach)) (not_le.mpr (hreach a ha hallow))
    · intro hall
      obtain ⟨a', ha', hallow, hle⟩ := hall d' hd' (hsd.allow_eq.trans hdis)
      obtain ⟨a, ha, hsa⟩ := hfrom a' ha'
      exact absurd ((hsd.le.trans hle).trans hsa.le_reach)
        (not_le.mpr (hreach a ha (hsa.allow_eq ▸ hallow)))

/-- Rules that are not steady have one that turns the decision when it is stretched
as far as it reaches. -/
theorem exists_tipping [DecidableEq ρ] (h : ¬ Steady len allow reach rules) :
    ∃ r ∈ rules, ∀ r', allow r' = allow r → len r' = reach r →
      (Allowed len allow (rules.map fun x => if x = r then r' else x) ↔
        ¬ Allowed len allow rules) := by
  rw [Steady, not_or, not_or] at h
  obtain ⟨hne, hfor, hagainst⟩ := h
  by_cases hall : Allowed len allow rules
  · -- one against outgrows the longest one for
    obtain hnil | ⟨a, ha, hallow, hlongest⟩ := allowed_iff_longest.mp hall
    · exact absurd hnil hne
    have hd : ∃ d ∈ rules, allow d = false ∧ len a < reach d := by
      by_contra hno
      refine hfor ⟨a, ha, hallow, fun d hd hdis => not_lt.mp fun hlt => hno ⟨d, hd, hdis, hlt⟩⟩
    obtain ⟨d, hd, hdis, hlt⟩ := hd
    refine ⟨d, hd, fun d' hallow' hlen' => iff_of_false ?_ (not_not.mpr hall)⟩
    intro hall'
    obtain ⟨x, hx, hxallow, hle⟩ :=
      hall' d' (List.mem_map.mpr ⟨d, hd, if_pos rfl⟩) (hallow'.trans hdis)
    obtain ⟨y, hy, rfl⟩ := List.mem_map.mp hx
    by_cases hyd : y = d
    · rw [if_pos hyd, hallow', hdis] at hxallow
      exact Bool.false_ne_true hxallow
    · rw [if_neg hyd, hlen'] at hle
      exact absurd (hle.trans (hlongest y hy)) (not_le.mpr hlt)
  · -- one for catches up with the longest one against
    obtain ⟨d, hd, hdis, hlongest, -⟩ := not_allowed_iff_longest.mp hall
    have ha : ∃ a ∈ rules, allow a = true ∧ len d ≤ reach a := by
      by_contra hno
      exact hagainst ⟨d, hd, hdis,
        fun a ha hallow => not_le.mp fun hle => hno ⟨a, ha, hallow, hle⟩⟩
    obtain ⟨a, ha, hallow, hle⟩ := ha
    refine ⟨a, ha, fun a' hallow' hlen' => iff_of_true ?_ hall⟩
    intro x hx hxdis
    refine ⟨a', List.mem_map.mpr ⟨a, ha, if_pos rfl⟩, hallow'.trans hallow, ?_⟩
    obtain ⟨y, hy, rfl⟩ := List.mem_map.mp hx
    by_cases hya : y = a
    · rw [if_pos hya]
    · rw [if_neg hya, hlen']
      exact (hlongest y hy).trans hle

end Precedence
