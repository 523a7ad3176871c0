/-
# What conditions come to

What a condition comes to depends on the properties, on the context and on what its lookups
find. `Condition.Yields` says so without a run, from a relation between selectors and what is
found for them. Where more is found, no result is lost (`Condition.yields_mono`), and where
each selector has one answer there is one result (`Condition.yields_unique`).

A condition that propagates failures has a result only if all its lookups had one. So what it
comes to in a run is what their answers yield (`Condition.holds_yields`).
-/
import Mathlib.Order.Basic
import Inversion.Proofs.Condition

namespace Inversion

/-- What conditions read besides the answers of their lookups. -/
structure Backdrop where
  properties : Properties
  cancelled : Bool
  idOf : Nat → String

def Plan.backdrop (plan : Plan) : Backdrop :=
  ⟨plan.properties, plan.cancelled, plan.idOf⟩

/-- Which beans have been found for which selectors. -/
abbrev Findings : Type :=
  Selector → List Nat → Prop

/-- What a probe comes to, if no lookup fails. -/
def Probe.Yields (backdrop : Backdrop) (known : Findings) : Probe → Bool → Prop
  | answer a, v => a = v
  | fail _, _ => False
  | raise _, _ => False
  | note _ next, v => next.Yields backdrop known v
  | find sel next, v =>
    ∃ found, known sel found ∧ (next (found.map backdrop.idOf)).Yields backdrop known v
  | attempt sel next, v =>
    ∃ found, known sel found ∧ (next (.ok (found.map backdrop.idOf))).Yields backdrop known v
  | properties next, v => (next backdrop.properties).Yields backdrop known v
  | cancelled next, v => (next backdrop.cancelled).Yields backdrop known v

mutual
/-- What a condition comes to, if no lookup fails. -/
def Condition.Yields (backdrop : Backdrop) (known : Findings) : Condition → Bool → Prop
  | .property key value ifMissing, v =>
    propertyHolds (backdrop.properties.get? key) value ifMissing = v
  | .missingProperty key, v => (!backdrop.properties.contains key) = v
  | .beans expectation sel, v => ∃ found, known sel found ∧ expectation.met found.length = v
  | .not c, v => c.Yields backdrop known (!v)
  | .all cs, v => AllYield backdrop known cs v
  | .any cs, v => AnyYields backdrop known cs v
  | .probe pr, v => pr.Yields backdrop known v
  | .context _ c, v => c.Yields backdrop known v

def AllYield (backdrop : Backdrop) (known : Findings) : List Condition → Bool → Prop
  | [], v => v = true
  | c :: cs, v =>
    (c.Yields backdrop known true ∧ AllYield backdrop known cs v) ∨
      (c.Yields backdrop known false ∧ v = false)

def AnyYields (backdrop : Backdrop) (known : Findings) : List Condition → Bool → Prop
  | [], v => v = false
  | c :: cs, v =>
    (c.Yields backdrop known false ∧ AnyYields backdrop known cs v) ∨
      (c.Yields backdrop known true ∧ v = true)
end

section
variable {backdrop : Backdrop} {known known' : Findings}

/-! ### More answers -/

theorem Probe.yields_mono (h : known ≤ known') :
    ∀ (pr : Probe) (v : Bool), pr.Yields backdrop known v → pr.Yields backdrop known' v
  | answer _, _, hv => hv
  | note _ next, v, hv => Probe.yields_mono h next v hv
  | find sel _, v, ⟨found, hk, hv⟩ => ⟨found, h sel found hk, Probe.yields_mono h _ v hv⟩
  | attempt sel _, v, ⟨found, hk, hv⟩ => ⟨found, h sel found hk, Probe.yields_mono h _ v hv⟩
  | properties next, v, hv => Probe.yields_mono h (next backdrop.properties) v hv
  | cancelled next, v, hv => Probe.yields_mono h (next backdrop.cancelled) v hv

mutual
theorem Condition.yields_mono (h : known ≤ known') :
    ∀ (c : Condition) (v : Bool), c.Yields backdrop known v → c.Yields backdrop known' v
  | .property _ _ _, _, hv => hv
  | .missingProperty _, _, hv => hv
  | .beans _ sel, _, ⟨found, hk, hv⟩ => ⟨found, h sel found hk, hv⟩
  | .not c, v, hv => Condition.yields_mono h c (!v) hv
  | .all cs, v, hv => allYield_mono h cs v hv
  | .any cs, v, hv => anyYields_mono h cs v hv
  | .probe pr, v, hv => pr.yields_mono h v hv
  | .context _ c, v, hv => Condition.yields_mono h c v hv

theorem allYield_mono (h : known ≤ known') :
    ∀ (cs : List Condition) (v : Bool), AllYield backdrop known cs v → AllYield backdrop known' cs v
  | [], _, hv => hv
  | c :: cs, v, hv =>
    hv.imp (fun hv => ⟨Condition.yields_mono h c true hv.1, allYield_mono h cs v hv.2⟩)
      fun hv => ⟨Condition.yields_mono h c false hv.1, hv.2⟩

theorem anyYields_mono (h : known ≤ known') :
    ∀ (cs : List Condition) (v : Bool), AnyYields backdrop known cs v → AnyYields backdrop known' cs v
  | [], _, hv => hv
  | c :: cs, v, hv =>
    hv.imp (fun hv => ⟨Condition.yields_mono h c false hv.1, anyYields_mono h cs v hv.2⟩)
      fun hv => ⟨Condition.yields_mono h c true hv.1, hv.2⟩
end

/-! ### One answer each -/

/-- No selector has two answers. -/
def Findings.Unique (known : Findings) : Prop :=
  ∀ sel found found', known sel found → known sel found' → found = found'

theorem Probe.yields_unique (h : Findings.Unique known) : ∀ (pr : Probe) (v v' : Bool),
    pr.Yields backdrop known v → pr.Yields backdrop known v' → v = v'
  | answer _, _, _, hv, hv' => hv.symm.trans hv'
  | note _ next, v, v', hv, hv' => Probe.yields_unique h next v v' hv hv'
  | find sel next, v, v', ⟨found, hk, hv⟩, ⟨found', hk', hv'⟩ => by
    cases h sel found found' hk hk'
    exact Probe.yields_unique h _ v v' hv hv'
  | attempt sel next, v, v', ⟨found, hk, hv⟩, ⟨found', hk', hv'⟩ => by
    cases h sel found found' hk hk'
    exact Probe.yields_unique h _ v v' hv hv'
  | properties next, v, v', hv, hv' => Probe.yields_unique h (next backdrop.properties) v v' hv hv'
  | cancelled next, v, v', hv, hv' => Probe.yields_unique h (next backdrop.cancelled) v v' hv hv'

mutual
theorem Condition.yields_unique (h : Findings.Unique known) : ∀ (c : Condition) (v v' : Bool),
    c.Yields backdrop known v → c.Yields backdrop known v' → v = v'
  | .property _ _ _, _, _, hv, hv' => hv.symm.trans hv'
  | .missingProperty _, _, _, hv, hv' => hv.symm.trans hv'
  | .beans _ sel, v, v', ⟨found, hk, hv⟩, ⟨found', hk', hv'⟩ => by
    cases h sel found found' hk hk'
    exact hv.symm.trans hv'
  | .not c, v, v', hv, hv' => Bool.not_inj (Condition.yields_unique h c (!v) (!v') hv hv')
  | .all cs, v, v', hv, hv' => allYield_unique h cs v v' hv hv'
  | .any cs, v, v', hv, hv' => anyYields_unique h cs v v' hv hv'
  | .probe pr, v, v', hv, hv' => pr.yields_unique h v v' hv hv'
  | .context _ c, v, v', hv, hv' => Condition.yields_unique h c v v' hv hv'

theorem allYield_unique (h : Findings.Unique known) : ∀ (cs : List Condition) (v v' : Bool),
    AllYield backdrop known cs v → AllYield backdrop known cs v' → v = v'
  | [], _, _, hv, hv' => hv.trans hv'.symm
  | c :: cs, v, v', hv, hv' => by
    rcases hv with ⟨hc, hv⟩ | ⟨hc, hv⟩ <;> rcases hv' with ⟨hc', hv'⟩ | ⟨hc', hv'⟩
    · exact allYield_unique h cs v v' hv hv'
    · cases Condition.yields_unique h c true false hc hc'
    · cases Condition.yields_unique h c true false hc' hc
    · exact hv.trans hv'.symm

theorem anyYields_unique (h : Findings.Unique known) : ∀ (cs : List Condition) (v v' : Bool),
    AnyYields backdrop known cs v → AnyYields backdrop known cs v' → v = v'
  | [], _, _, hv, hv' => hv.trans hv'.symm
  | c :: cs, v, v', hv, hv' => by
    rcases hv with ⟨hc, hv⟩ | ⟨hc, hv⟩ <;> rcases hv' with ⟨hc', hv'⟩ | ⟨hc', hv'⟩
    · exact anyYields_unique h cs v v' hv hv'
    · cases Condition.yields_unique h c true false hc' hc
    · cases Condition.yields_unique h c true false hc hc'
    · exact hv.trans hv'.symm
end

end

/-! ### Runs -/

/-- Lookups learn what they find, and nothing that is known is forgotten. -/
structure Learns (find : Selector → Checking (List Nat)) (J : Progress → Prop)
    (known : Progress → Findings) : Prop where
  note : ∀ p e, e.IsCheck → J p → J (p.note e) ∧ known p ≤ known (p.note e)
  find : ∀ sel p, J p → After (find sel) p fun r q =>
    ∀ found, r = .ok found → J q ∧ known p ≤ known q ∧ known q sel found

/-- What a check comes to is what the answers yield that are known then; `p` is before. -/
def Yielded (J : Progress → Prop) (known : Progress → Findings) (p : Progress)
    (yields : Findings → Bool → Prop) (r : Except Fault Bool) (q : Progress) : Prop :=
  ∀ v, r = .ok v → J q ∧ known p ≤ known q ∧ yields (known q) v

section
variable {plan : Plan} {find : Selector → Checking (List Nat)} {J : Progress → Prop}
  {known : Progress → Findings} {p q : Progress} {yields : Findings → Bool → Prop}

theorem Learns.hosts (h : Learns find J known) : Hosts find J fun _ => True where
  weaken _ _ := trivial
  note p e he hp := (h.note p e he hp).1
  note_failed _ _ _ _ := trivial
  lookup sel p hp := (h.find sel p hp).mono fun r q hq => by
    cases r with
    | ok found => exact (hq found rfl).1
    | error e => trivial
  lookup_failed _ _ _ := split_same.mpr trivial

theorem Yielded.mono {yields' : Findings → Bool → Prop} {r : Except Fault Bool}
    (h : Yielded J known p yields r q) (hy : ∀ v, yields (known q) v → yields' (known q) v) :
    Yielded J known p yields' r q :=
  fun v hv => (h v hv).imp_right fun hq => ⟨hq.1, hy v hq.2⟩

/-- A check that goes on from where more is known. -/
theorem Yielded.after {t : Progress} {r : Except Fault Bool} (h : Yielded J known q yields r t)
    (hq : known p ≤ known q) : Yielded J known p yields r t :=
  fun v hv => (h v hv).imp_right fun ht => ⟨hq.trans ht.1, ht.2⟩

theorem yielded_answer {v : Bool} (hp : J p) (hv : yields (known p) v) :
    Yielded J known p yields (.ok v) p := by
  rintro _ ⟨⟩
  exact ⟨hp, le_rfl, hv⟩

/-- A check whose answer may depend on that of one before. -/
theorem yielded_bind {x : Checking Bool} {f : Bool → Checking Bool}
    {first : Findings → Bool → Prop} (next : Bool → Findings → Bool → Prop)
    (hmono : ∀ {k k' : Findings}, k ≤ k' → ∀ b, first k b → first k' b)
    (hx : After x p (Yielded J known p first))
    (hf : ∀ b q, J q → After (f b) q (Yielded J known q (next b))) :
    After (x >>= f) p (Yielded J known p fun k v => ∃ b, first k b ∧ next b k v) := by
  rw [after_bind]
  refine hx.mono fun r q hq => ?_
  cases r with
  | error e => exact fun v hv => by cases hv
  | ok b =>
    obtain ⟨hJ, hpq, hb⟩ := hq b rfl
    rw [continues_ok]
    refine (hf b q hJ).mono fun r t ht v hv => ?_
    obtain ⟨hJt, hqt, hv⟩ := ht v hv
    exact ⟨hJt, hpq.trans hqt, b, hmono hqt b hb, hv⟩

theorem Learns.noted (h : Learns find J known) {e : Event} (he : e.IsCheck) {x : Checking Bool}
    (hp : J p) (hx : ∀ q, J q → After x q (Yielded J known q yields)) :
    After (modify (·.note e) >>= fun _ => x) p (Yielded J known p yields) := by
  obtain ⟨hJ, hpq⟩ := h.note p e he hp
  rw [after_bind, after_modify, continues_ok]
  exact (hx _ hJ).mono fun r q hq => hq.after hpq

/-- A lookup, and what goes on with its answer. -/
theorem Learns.found (h : Learns find J known) {sel : Selector} {f : List Nat → Checking Bool}
    (next : List Nat → Findings → Bool → Prop) (hp : J p)
    (hf : ∀ found q, J q → After (f found) q (Yielded J known q (next found))) :
    After (find sel >>= f) p
      (Yielded J known p fun k v => ∃ found, k sel found ∧ next found k v) := by
  rw [after_bind]
  refine (h.find sel p hp).mono fun r q hq => ?_
  cases r with
  | error e => exact fun v hv => by cases hv
  | ok found =>
    obtain ⟨hJ, hpq, hfound⟩ := hq found rfl
    rw [continues_ok]
    refine (hf found q hJ).mono fun r t ht v hv => ?_
    obtain ⟨hJt, hqt, hv⟩ := ht v hv
    exact ⟨hJt, hpq.trans hqt, found, hqt sel found hfound, hv⟩

theorem Probe.run_yields (h : Learns find J known) : ∀ pr : Probe, pr.Propagates → ∀ p, J p →
    After (pr.run plan find) p (Yielded J known p fun k v => pr.Yields plan.backdrop k v)
  | answer b, _, p, hp => yielded_answer hp rfl
  | fail message, _, p, _ => fun v hv => by cases hv
  | raise cause, _, p, _ => fun v hv => by cases hv
  | note entry next, hc, p, hp => by
    simp only [Probe.run]
    exact h.noted (by trivial) hp fun q hq => Probe.run_yields h next hc q hq
  | .find sel next, hc, p, hp => by
    simp only [Probe.run]
    exact h.found (fun found k v => (next (found.map plan.idOf)).Yields plan.backdrop k v) hp
      fun found q hq => Probe.run_yields h _ (hc _) q hq
  | attempt sel next, hc, p, hp => by
    simp only [Probe.run, after_bind, after_observe, continues_ok]
    refine (h.find sel p hp).mono fun r q hq => ?_
    cases r with
    | error cause =>
      -- the probe fails as well, so there is nothing to be known
      refine (Probe.run_fails h.hosts _ (hc.1 cause) q trivial).mono fun r t ht v hv => ?_
      rw [hv] at ht
      exact ht.elim
    | ok found =>
      obtain ⟨hJ, hpq, hfound⟩ := hq found rfl
      refine (Probe.run_yields h _ (hc.2 _) q hJ).mono fun r t ht v hv => ?_
      obtain ⟨hJt, hqt, hv⟩ := ht v hv
      exact ⟨hJt, hpq.trans hqt, found, hqt sel found hfound, hv⟩
  | properties next, hc, p, hp => by
    simp only [Probe.run]
    exact Probe.run_yields h _ (hc _) p hp
  | cancelled next, hc, p, hp => by
    simp only [Probe.run]
    exact Probe.run_yields h _ (hc _) p hp

mutual
theorem Condition.holds_yields (h : Learns find J known) : ∀ c : Condition, c.Propagates →
    ∀ p, J p → After (c.holds plan find) p (Yielded J known p fun k v => c.Yields plan.backdrop k v)
  | .property key value ifMissing, _, p, hp => by
    simp only [Condition.holds]
    exact h.noted (by trivial) hp fun q hq => yielded_answer hq rfl
  | .missingProperty key, _, p, hp => by
    simp only [Condition.holds]
    exact h.noted (by trivial) hp fun q hq => yielded_answer hq rfl
  | .beans expectation sel, _, p, hp => by
    simp only [Condition.holds]
    refine h.noted (by trivial) hp fun q hq => ?_
    exact h.found (fun found _ v => expectation.met found.length = v) hq
      fun found t ht => yielded_answer ht rfl
  | .not c, hc, p, hp => by
    simp only [Condition.holds]
    refine After.mono (yielded_bind (fun b _ v => (!b) = v) (fun hk b => Condition.yields_mono hk c b)
      (Condition.holds_yields h c hc p hp) fun b q hq => yielded_answer hq rfl)
        fun r q hq => hq.mono fun v ⟨b, hb, hv⟩ => ?_
    show c.Yields plan.backdrop _ (!v)
    rwa [← hv, Bool.not_not]
  | .all cs, hc, p, hp => by
    simp only [Condition.holds]
    exact allHold_yields h cs hc p hp
  | .any cs, hc, p, hp => by
    simp only [Condition.holds]
    exact anyHolds_yields h cs hc p hp
  | .probe pr, hc, p, hp => by
    simp only [Condition.holds]
    exact h.noted (by trivial) hp fun q hq => pr.run_yields h hc q hq
  | .context message c, hc, p, hp => by
    simp only [Condition.holds]
    rw [after_adapt]
    refine (Condition.holds_yields h c hc p hp).mono fun r q hq v hv => ?_
    cases r with
    | error e => cases hv
    | ok v' =>
      cases hv
      exact hq v rfl

theorem allHold_yields (h : Learns find J known) :
    ∀ cs : List Condition, Condition.AllPropagate cs → ∀ p, J p →
      After (allHold plan find cs) p (Yielded J known p fun k v => AllYield plan.backdrop k cs v)
  | [], _, p, hp => yielded_answer hp rfl
  | c :: cs, hc, p, hp => by
    simp only [allHold]
    refine (yielded_bind (fun b k v => if b then AllYield plan.backdrop k cs v else v = false)
      (fun hk b => Condition.yields_mono hk c b) (Condition.holds_yields h c hc.1 p hp)
      fun b q hq => ?_).mono fun r q hq => hq.mono fun v ⟨b, hb, hv⟩ => ?_
    · cases b with
      | true => exact allHold_yields h cs hc.2 q hq
      | false => exact yielded_answer hq rfl
    · cases b with
      | true => exact .inl ⟨hb, hv⟩
      | false => exact .inr ⟨hb, hv⟩

theorem anyHolds_yields (h : Learns find J known) :
    ∀ cs : List Condition, Condition.AllPropagate cs → ∀ p, J p →
      After (anyHolds plan find cs) p (Yielded J known p fun k v => AnyYields plan.backdrop k cs v)
  | [], _, p, hp => yielded_answer hp rfl
  | c :: cs, hc, p, hp => by
    simp only [anyHolds]
    refine (yielded_bind (fun b k v => if b then v = true else AnyYields plan.backdrop k cs v)
      (fun hk b => Condition.yields_mono hk c b) (Condition.holds_yields h c hc.1 p hp)
      fun b q hq => ?_).mono fun r q hq => hq.mono fun v ⟨b, hb, hv⟩ => ?_
    · cases b with
      | true => exact yielded_answer hq rfl
      | false => exact anyHolds_yields h cs hc.2 q hq
    · cases b with
      | true => exact .inr ⟨hb, hv⟩
      | false => exact .inl ⟨hb, hv⟩
end

end
end Inversion
