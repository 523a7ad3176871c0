/-
# Other orders of registration

A bean with a verdict is resolved without a failure, and without meeting a bean that is
being resolved, in whatever order its lookups come to it (`resolve_clear`). Below a bean
there are only verdicts of earlier rounds than its own, so what carries the induction
is that the beans being resolved have no verdict yet in the round at hand.

If all beans are resolved in one order without meeting one that is being resolved, they
all have a verdict. Verdicts do not depend on the order, so they are resolved in every
other order, to the same end (`resolution_independent_of_order`).
-/
import Inversion.Proofs.Lookup.Judgement

namespace Inversion

theorem Event.IsCheck.isSkip {e : Event} (h : e.IsCheck) : e.isSkip = false := by
  cases e <;> first | rfl | exact h.elim

namespace Plan

variable {plan : Plan} {resolve : Nat → Resolving Unit} {n k : Nat} {away : List Nat}
  {sel : Selector}

/-! ### Beans with a verdict -/

/-- No lookup has met a bean that was being resolved, and the decided beans are as
their verdicts say. -/
def Clear (plan : Plan) (away : List Nat) (n : Nat) (p : Progress) : Prop :=
  ¬ p.Skipped ∧ plan.During away n p ∧ plan.Justified p.registry

theorem Sure.clear {p : Progress} (h : plan.Sure away n p) (hs : ¬ p.Skipped) :
    plan.Clear away n p :=
  ⟨hs, h.resolve_left hs⟩

theorem Clear.sure {p : Progress} (h : plan.Clear away n p) : plan.Sure away n p :=
  .inr h.2

theorem Clear.note {p : Progress} (h : plan.Clear away n p) {e : Event} (he : ¬ e.IsLookup)
    (hs : e.isSkip = false) : plan.Clear away n (p.note e) :=
  ⟨fun h' => h.1 ((Progress.skipped_note hs).mp h'), h.2.1.note he, h.2.2⟩

/-- Lookups that are counted succeed with that many beans. -/
structure Supplies (plan : Plan) (find : Selector → Checking (List Nat))
    (count : Selector → Option Nat) (J : Progress → Prop) : Prop where
  note : ∀ p e, e.IsCheck → J p → J (p.note e)
  find : ∀ sel m p, J p → count sel = some m → After (find sel) p fun r q =>
    (∃ found, r = .ok found ∧ found.length = m) ∧ J q

section
variable {find : Selector → Checking (List Nat)} {count : Selector → Option Nat}
  {J : Progress → Prop}

theorem foretold_bind {x : Checking Bool} {f : Bool → Checking Bool} {first : Option Bool}
    {next : Bool → Option Bool} {v : Bool} {p : Progress} (h : first.bind next = some v)
    (hx : ∀ b, first = some b → After x p fun r q => r = .ok b ∧ J q)
    (hf : ∀ b q, J q → next b = some v → After (f b) q fun r t => r = .ok v ∧ J t) :
    After (x >>= f) p fun r t => r = .ok v ∧ J t := by
  obtain ⟨b, hb, hv⟩ := Option.bind_eq_some_iff.mp h
  rw [after_bind]
  refine (hx b hb).mono fun r q ⟨hr, hq⟩ => ?_
  rw [hr, continues_ok]
  exact hf b q hq hv

mutual
/-- A condition succeeds with what is foretold. -/
theorem Condition.holds_foretold (h : plan.Supplies find count J) : ∀ (c : Condition) (v : Bool) p,
    J p → c.foretell plan.properties count = some v →
      After (c.holds plan find) p fun r q => r = .ok v ∧ J q
  | .property key value ifMissing, v, p, hp, hv => by
    simp only [Condition.holds, after_bind, after_modify, continues_ok, after_pure]
    exact ⟨congrArg Except.ok (Option.some.inj hv), h.note p _ (by trivial) hp⟩
  | .missingProperty key, v, p, hp, hv => by
    simp only [Condition.holds, after_bind, after_modify, continues_ok, after_pure]
    exact ⟨congrArg Except.ok (Option.some.inj hv), h.note p _ (by trivial) hp⟩
  | .beans expectation sel, v, p, hp, hv => by
    obtain ⟨m, hm, hv⟩ := Option.map_eq_some_iff.mp hv
    simp only [Condition.holds, after_bind, after_modify, continues_ok]
    refine (h.find sel m _ (h.note p (.test (.beans sel)) (by trivial) hp) hm).mono
      fun r q ⟨⟨found, hr, hlength⟩, hq⟩ => ?_
    rw [hr, continues_ok, after_pure, hlength, hv]
    exact ⟨rfl, hq⟩
  | .not c, v, p, hp, hv => by
    simp only [Condition.holds]
    exact foretold_bind hv (fun b hb => Condition.holds_foretold h c b p hp hb)
      fun b q hq hv => ⟨congrArg Except.ok (Option.some.inj hv), hq⟩
  | .all cs, v, p, hp, hv => by
    simp only [Condition.holds]
    exact allHold_foretold h cs v p hp hv
  | .any cs, v, p, hp, hv => by
    simp only [Condition.holds]
    exact anyHolds_foretold h cs v p hp hv

theorem allHold_foretold (h : plan.Supplies find count J) : ∀ (cs : List Condition) (v : Bool) p,
    J p → foretellAll plan.properties count cs = some v →
      After (allHold plan find cs) p fun r q => r = .ok v ∧ J q
  | [], v, p, hp, hv => ⟨congrArg Except.ok (Option.some.inj hv), hp⟩
  | c :: cs, v, p, hp, hv => by
    simp only [allHold]
    refine foretold_bind hv (fun b hb => Condition.holds_foretold h c b p hp hb)
      fun b q hq hv => ?_
    cases b with
    | true => exact allHold_foretold h cs v q hq hv
    | false => exact ⟨congrArg Except.ok (Option.some.inj hv), hq⟩

theorem anyHolds_foretold (h : plan.Supplies find count J) : ∀ (cs : List Condition) (v : Bool) p,
    J p → foretellAny plan.properties count cs = some v →
      After (anyHolds plan find cs) p fun r q => r = .ok v ∧ J q
  | [], v, p, hp, hv => ⟨congrArg Except.ok (Option.some.inj hv), hp⟩
  | c :: cs, v, p, hp, hv => by
    simp only [anyHolds]
    refine foretold_bind hv (fun b hb => Condition.holds_foretold h c b p hp hb)
      fun b q hq hv => ?_
    cases b with
    | true => exact ⟨congrArg Except.ok (Option.some.inj hv), hq⟩
    | false => exact anyHolds_foretold h cs v q hq hv
end

end

/-- A scan succeeds if all its beans are resolved, and it meets none being resolved. -/
theorem scan_clear : ∀ (bs : List Nat) (p : Progress), plan.Clear away n p → (∀ b ∈ bs, b ∉ away) →
    (∀ b ∈ bs, ∀ q, plan.Clear away n q →
      After (resolve b) q fun r t => r = .ok () ∧ plan.Clear away n t) →
    After (plan.scan resolve sel bs) p fun r q => (∃ found, r = .ok found) ∧ plan.Clear away n q
  | [], _, hp, _, _ => ⟨⟨[], rfl⟩, hp⟩
  | b :: bs, p, hp, haway, hresolve => by
    have hr : p.registry.status b ≠ .resolving := fun hr =>
      haway b List.mem_cons_self ((hp.2.1.2 b).mp hr)
    rw [scan, after_bind, after_get, continues_ok, if_neg hr, after_bind]
    refine (hresolve b List.mem_cons_self p hp).mono fun r q hresolved => ?_
    obtain ⟨hr, hq⟩ := hresolved
    rw [hr, continues_ok, after_bind, after_get, continues_ok, after_bind]
    refine (scan_clear bs q hq (fun c hc => haway c (List.mem_cons_of_mem b hc))
      fun c hc => hresolve c (List.mem_cons_of_mem b hc)).mono fun r t hrest => ?_
    obtain ⟨⟨found, hr⟩, ht⟩ := hrest
    rw [hr, continues_ok, after_pure]
    exact ⟨⟨_, rfl⟩, ht⟩

/-- In the round `k` the beans being resolved have no verdict yet. -/
def Ahead (plan : Plan) (k : Nat) (away : List Nat) : Prop :=
  ∀ b ∈ away, ∀ bean, plan.beans[b]? = some bean → plan.verdict k bean = none

theorem Ahead.not_mem (h : plan.Ahead k away) {b : Nat} {bean : Bean} (hb : plan.beans[b]? = some bean)
    (hv : (plan.verdict k bean).isSome) : b ∉ away := by
  intro haway
  rw [h b haway bean hb] at hv
  cases hv

/-- A bean that is begun in the round after the last one without a verdict on it. -/
theorem Ahead.begin (h : plan.Ahead k away) {p : Progress} (hp : plan.During away (n + 1) p) {b j : Nat}
    {bean : Bean} (hbean : plan.beans[b]? = some bean) (hj : j < k)
    (hnone : plan.verdict j bean = none) :
    plan.Ahead j (p.setStatus b .resolving).registry.resolving := by
  intro c hc bean' hbean'
  by_cases hcb : c = b
  · rw [hcb, hbean] at hbean'
    rwa [← Option.some.inj hbean']
  · rw [Registry.mem_resolving, Progress.registry_setStatus,
      Registry.status_setStatus_of_ne _ b c _ hcb] at hc
    have hlate := h c ((hp.2 c).mp hc) bean' hbean'
    -- a verdict in the round `j` would be one in the round `k`
    cases he : plan.verdict j bean' with
    | none => rfl
    | some v =>
      rw [verdict_mono (Nat.le_of_lt hj) bean' v he] at hlate
      cases hlate

/-- A resolution of a bean that has a verdict in a round before those being resolved. -/
def Settles (plan : Plan) (resolve : Nat → Resolving Unit) (n : Nat) : Prop :=
  ∀ k away b bean p, plan.Clear away n p → plan.Ahead k away → plan.beans[b]? = some bean →
    (plan.verdict k bean).isSome →
      After (resolve b) p fun r q => r = .ok () ∧ plan.Clear away n q

/-- A lookup that is counted succeeds, with that many beans. -/
theorem findWith_clear (h : plan.Resolves resolve n) (hkeep : ∀ b, Keeps Progress.Skipped (resolve b))
    (hsure : ∀ away b, Carries (plan.Sure away n) (fun _ => True) (resolve b))
    (hsettles : plan.Settles resolve n) {p : Progress} (hp : plan.Clear away n p)
    (hahead : plan.Ahead k away) {m : Nat} (hm : plan.tally (plan.verdict k) sel = some m) :
    After (plan.findWith resolve sel) p fun r q =>
      (∃ found, r = .ok found ∧ found.length = m) ∧ plan.Clear away n q := by
  have hcandidates : ∀ b ∈ plan.candidates p.registry sel, ∃ bean, plan.beans[b]? = some bean ∧
      (plan.verdict k bean).isSome := by
    intro b hb
    have hmay := (List.mem_filter.mp hb).2
    unfold mayMatch at hmay
    obtain ⟨bean, hbean, hmay⟩ := (Option.any_eq_true _ _).mp hmay
    exact ⟨bean, hbean, (tally_eq_some.mp hm).1 bean (List.mem_of_getElem? hbean) hmay⟩
  have hscan : After (plan.findWith resolve sel) p fun r q =>
      (∃ found, r = .ok found) ∧ ¬ q.Skipped := by
    unfold findWith
    rw [after_bind, after_get, continues_ok, after_bind]
    refine (scan_clear (plan.candidates p.registry sel) p hp (fun b hb => ?_)
      fun b hb q hq => ?_).mono fun r q ⟨⟨found, hr⟩, hq⟩ => ?_
    · obtain ⟨bean, hbean, hv⟩ := hcandidates b hb
      exact hahead.not_mem hbean hv
    · obtain ⟨bean, hbean, hv⟩ := hcandidates b hb
      exact hsettles k away b bean q hq hahead hbean hv
    · rw [hr, continues_ok, after_bind, after_modify, continues_ok, after_pure]
      exact ⟨⟨found, rfl⟩, fun hs => hq.1 ((Progress.skipped_note rfl).mp hs)⟩
  refine (hscan.and (findWith_told h hkeep hsure hp.sure)).mono
    fun r q ⟨⟨⟨found, hr⟩, hs⟩, _, htold⟩ => ?_
  obtain ⟨hq, hlength⟩ := htold found hr
  obtain ⟨k', hk'⟩ := hlength hs
  have hm := tally_mono (verdict_mono (Nat.le_max_left k k')) sel m hm
  rw [tally_mono (verdict_mono (Nat.le_max_right k k')) sel _ hk'] at hm
  exact ⟨⟨found, hr, Option.some.inj hm⟩, hq.clear hs⟩

section
variable (hplain : ∀ bean ∈ plan.beans, Condition.arePlain bean.conditions)
include hplain

theorem resolves_of_plain : ∀ n, plan.Resolves (plan.resolve n) n :=
  resolve_faithful fun bean hbean => Condition.allPropagate_of_arePlain _ (hplain bean hbean)

theorem supplies_seek (hsettles : plan.Settles (plan.resolve n) n) (hahead : plan.Ahead k away) :
    plan.Supplies (plan.seek n) (plan.tally (plan.verdict k)) (plan.Clear away n) where
  note p e he hp := hp.note (Event.IsCheck.not_isLookup he) (Event.IsCheck.isSkip he)
  find sel m p hp hm := by
    unfold seek
    rw [after_adapt]
    refine (findWith_clear (resolves_of_plain hplain n) (resolve_keeps persists_skipped n)
      (resolve_sure hplain n) hsettles hp hahead hm).mono fun r q ⟨⟨found, hr, hlength⟩, hq⟩ => ?_
    exact ⟨⟨found, by rw [hr]; rfl, hlength⟩, hq⟩

/-- A bean with a verdict is resolved without meeting one that is being resolved. -/
theorem resolve_clear : ∀ n, plan.Settles (plan.resolve n) n
  | 0 => fun _ _ _ _ _ hp _ _ _ => ⟨rfl, hp⟩
  | n + 1 => by
    intro k away b bean p hp hahead hbean hv
    suffices h : After (plan.resolve (n + 1) b) p fun r q => r = .ok () ∧ ¬ q.Skipped by
      refine (h.and (resolve_sure hplain (n + 1) away b p hp.sure)).mono
        fun r q ⟨⟨hr, hs⟩, hq⟩ => ⟨hr, ?_⟩
      rw [hr] at hq
      exact Sure.clear hq hs
    by_cases hb : p.registry.status b = .fresh
    · have hlt : b < p.registry.marks.length := Registry.lt_length_of_status_eq hb (by decide)
      obtain ⟨j, v, hj, hnone, hv⟩ := exists_first_round hv
      obtain ⟨hforetold, hexports⟩ := verdict_eq_some.mp hv
      have hbegun : plan.Clear (p.setStatus b .resolving).registry.resolving n
          (p.setStatus b .resolving) := by
        refine ⟨fun hs => hp.1 ?_, (hp.2.1.1.begin hb).during, hp.2.2.begin hlt⟩
        exact (Progress.skipped_note (p := { p with registry := _ }) rfl).mp hs
      have hahead' := hahead.begin hp.2.1 hbean hj hnone
      have hcheck : After (plan.check n bean) (p.setStatus b .resolving) fun r q =>
          r = .ok v ∧ ¬ q.Skipped := by
        unfold check
        rw [after_adapt]
        refine (allHold_foretold (supplies_seek hplain (resolve_clear n) hahead') bean.conditions v _
          hbegun hforetold).mono fun r q ⟨hr, hq⟩ => ⟨?_, hq.1⟩
        rw [hr]
        rfl
      refine after_resolve hbean hb hcheck
        (fun q hq => ⟨hq.1, fun hs => hq.2 ((Progress.skipped_note rfl).mp hs)⟩)
        (fun e q hq => (by cases hq.1)) (fun e q hq he => ?_)
        (fun q hq _ => ⟨rfl, fun hs => hq.2 (skipped_discard.mp hs)⟩)
        fun exports q hq _ _ => ⟨rfl, fun hs => hq.2 (skipped_settle.mp hs)⟩
      obtain ⟨exports, hexported⟩ := hexports (Except.ok.inj hq.1).symm
      rw [he] at hexported
      cases hexported
    · rw [resolve_of_begun hb]
      exact ⟨rfl, hp.1⟩

/-! ### All beans -/

/-- All beans with a verdict are resolved. -/
theorem resolveAll_clear {p : Progress} (hp : plan.Clear [] plan.beans.length p)
    (hv : ∀ bean ∈ plan.beans, (plan.verdict k bean).isSome) :
    After plan.resolveAll p fun r q => r = .ok () ∧ plan.Clear [] plan.beans.length q := by
  refine After.forM (fun b hb q hq => ?_) p hp
  have hbean := List.getElem?_eq_getElem (List.mem_range.mp hb)
  exact resolve_clear hplain plan.beans.length k [] b _ q hq
    (fun c hc => absurd hc List.not_mem_nil) hbean (hv _ (List.mem_of_getElem? hbean))

end

/-- The progress that a resolution of all beans starts from. -/
def start (plan : Plan) : Progress :=
  ⟨Registry.ofBeans plan.beans, 0, []⟩

theorem faithful_start : Faithful plan plan.start :=
  .of_new rfl fun _ hm => absurd hm List.not_mem_nil

theorem clear_start : plan.Clear [] plan.beans.length plan.start := by
  have hstatus (b : Nat) : plan.start.registry.status b =
      if b < plan.beans.length then .fresh else .deleted := Registry.status_ofBeans plan.beans b
  refine ⟨fun ⟨_, hin, _⟩ => absurd hin List.not_mem_nil,
    ⟨within_of_faithful faithful_start, fun b => ?_⟩, fun b bean hbean => ?_⟩
  · rw [hstatus]
    split <;> simp
  · have hlt : b < plan.beans.length := (List.getElem?_eq_some_iff.mp hbean).1
    rw [hstatus, if_pos hlt]
    exact ⟨fun hs => (by cases hs), fun hd => (by cases hd)⟩

/-- A bean is resolved with its final exports, or deleted, as its verdict says. -/
inductive Ended (plan : Plan) (r : Registry) (b : Nat) (bean : Bean) : Prop
  | resolved {k : Nat} (verdict : plan.verdict k bean = some true) (status : r.status b = .resolved)
    (exports : plan.exportsOf bean = .ok (r.exports b)) : Ended plan r b bean
  | deleted {k : Nat} (verdict : plan.verdict k bean = some false) (status : r.status b = .deleted)
    (exports : r.exports b = []) : Ended plan r b bean

/-- Before a wiring the settled beans are just resolved, and only they have exports. -/
def Unwired (r : Registry) (b : Nat) : Prop :=
  (r.status b = .resolved ∨ (r.status b).isSettled = false) ∧
    ((r.status b).isSettled ∨ r.exports b = [])

theorem persists_unwired (b : Nat) : plan.Persists fun p => Unwired p.registry b where
  note _ _ _ hp := hp
  begin p c hc hp := by
    unfold Unwired
    rw [Progress.registry_setStatus, Registry.exports_setStatus]
    by_cases hb : b = c
    · have hnone : p.registry.exports b = [] := hp.2.resolve_left (by rw [hb, hc]; decide)
      have hlt : c < p.registry.marks.length := Registry.lt_length_of_status_eq hc (by decide)
      rw [hb, Registry.status_setStatus_self _ c _ hlt, ← hb]
      exact ⟨.inr rfl, .inr hnone⟩
    · rw [Registry.status_setStatus_of_ne _ c b _ hb]
      exact hp
  settle p c bean exports _ hc _ hp := by
    unfold Unwired
    by_cases hb : b = c
    · rw [hb, status_settle_self c bean exports p
        (Registry.lt_length_of_status_eq hc (by decide))]
      exact ⟨.inl rfl, .inl rfl⟩
    · rw [status_settle_of_ne c b bean exports p hb, exports_settle_of_ne c b bean exports p hb]
      exact hp
  discard p c hc hp := by
    unfold Unwired
    rw [exports_discard]
    by_cases hb : b = c
    · have hnone : p.registry.exports b = [] := hp.2.resolve_left (by rw [hb, hc]; decide)
      rw [hb, status_discard_self c p plan (Registry.lt_length_of_status_eq hc (by decide)), ← hb]
      exact ⟨.inr rfl, .inr hnone⟩
    · rw [status_discard_of_ne c b p plan hb]
      exact hp

theorem unwired_start (b : Nat) : Unwired plan.start.registry b := by
  have hexports : plan.start.registry.exports b = [] := by
    by_cases hb : b < plan.beans.length
    · simp [start, Registry.exports, Registry.ofBeans, hb]
    · simp [start, Registry.exports, Registry.ofBeans, hb]
  refine ⟨.inr ?_, .inr hexports⟩
  rw [show plan.start.registry.status b = _ from Registry.status_ofBeans plan.beans b]
  split <;> rfl

/-- What a resolution of all beans comes to if it meets none that is being resolved. -/
theorem resolveAll_ended (hplain : ∀ bean ∈ plan.beans, Condition.arePlain bean.conditions) :
    After plan.resolveAll plan.start fun r q => r = .ok () → ¬ q.Skipped →
      ∀ b bean, plan.beans[b]? = some bean → plan.Ended q.registry b bean := by
  have hsure : Carries (plan.Sure [] plan.beans.length) (fun _ => True) plan.resolveAll :=
    Carries.forM fun b _ => resolve_sure hplain _ [] b
  have hfaithful : After plan.resolveAll plan.start _ := resolveAll_faithful
    (fun bean hbean => Condition.allPropagate_of_arePlain _ (hplain bean hbean)) faithful_start
    fun b hb => absurd ((clear_start.2.1.2 b).mp hb) List.not_mem_nil
  have hunwired : Keeps (fun p => ∀ b, Unwired p.registry b) plan.resolveAll :=
    resolveAll_keeps (Persists.all persists_unwired)
  refine (((hsure _ clear_start.sure).and hfaithful).and (hunwired _ unwired_start)).mono
    fun r q ⟨⟨hq, hf, hdecided⟩, hunwired⟩ hr hs b bean hbean => ?_
  rw [hr] at hq
  have hjustified := (Sure.clear hq hs).2.2 b bean hbean
  obtain ⟨hstatus, hexports⟩ := split_same.mp hunwired b
  rcases hdecided hr b with hsettled | hdeleted
  · obtain ⟨k, hv⟩ := hjustified.1 hsettled
    have hresolved := hstatus.resolve_right (by rw [hsettled]; decide)
    exact .resolved hv hresolved (hf.sound.exports b bean hbean hsettled)
  · obtain ⟨k, hv⟩ := hjustified.2 hdeleted
    exact .deleted hv hdeleted (hexports.resolve_left (by rw [hdeleted]; decide))

theorem Ended.same {beans : List Bean} (hperm : beans.Perm plan.beans) {r r' : Registry} {b b' : Nat}
    {bean : Bean} (h : plan.Ended r b bean) (h' : { plan with beans }.Ended r' b' bean) :
    r'.status b' = r.status b ∧ r'.exports b' = r.exports b := by
  cases h with
  | resolved verdict status exports =>
    cases h' with
    | resolved verdict' status' exports' =>
      exact ⟨status'.trans status.symm, Except.ok.inj (exports'.symm.trans exports)⟩
    | deleted verdict' _ _ =>
      rw [verdict_perm hperm] at verdict'
      cases verdict_unique verdict verdict'
  | deleted verdict status exports =>
    cases h' with
    | resolved verdict' _ _ =>
      rw [verdict_perm hperm] at verdict'
      cases verdict_unique verdict verdict'
    | deleted _ status' exports' => exact ⟨status'.trans status.symm, exports'.trans exports.symm⟩

/-- If all beans with plain conditions are resolved in one order and no lookup meets a
bean that is being resolved, so it is in every other order, and every bean comes to the
same status and the same exports. Identities play no part. -/
theorem resolution_independent_of_order (plan : Plan) (beans : List Bean)
    (hperm : beans.Perm plan.beans)
    (hplain : ∀ bean ∈ plan.beans, Condition.arePlain bean.conditions) (q : Progress)
    (hrun : outcome plan.resolveAll plan.start = (.ok (), q)) (hclear : ¬ q.Skipped) :
    ∃ q', outcome { plan with beans }.resolveAll { plan with beans }.start = (.ok (), q') ∧
      ¬ q'.Skipped ∧ ∀ b b' bean, plan.beans[b]? = some bean → beans[b']? = some bean →
        q'.registry.status b' = q.registry.status b ∧
          q'.registry.exports b' = q.registry.exports b := by
  have hended := (resolveAll_ended hplain).of_outcome hrun rfl hclear
  obtain ⟨k, hk⟩ := @exists_round plan (fun _ => True) plan.beans fun bean hbean _ => by
    obtain ⟨b, hb⟩ := List.getElem?_of_mem hbean
    cases hended b bean hb with
    | @resolved k hv _ _ => exact ⟨k, true, hv⟩
    | @deleted k hv _ _ => exact ⟨k, false, hv⟩
  have hplain' : ∀ bean ∈ { plan with beans }.beans, Condition.arePlain bean.conditions :=
    fun bean hbean => hplain bean (hperm.mem_iff.mp hbean)
  have hk' : ∀ bean ∈ { plan with beans }.beans, ({ plan with beans }.verdict k bean).isSome := by
    intro bean hbean
    rw [verdict_perm hperm]
    exact hk bean (hperm.mem_iff.mp hbean) trivial
  obtain ⟨⟨hr, hq⟩, hended'⟩ := (resolveAll_clear hplain' clear_start hk').and (resolveAll_ended hplain')
  exact ⟨_, Prod.ext hr rfl, hq.1, fun b b' bean hb hb' =>
    (hended b bean hb).same hperm (hended' hr hq.1 b' bean hb')⟩

/-- A cache, and a store in place of it where there is none. -/
def standIn : Plan where
  beans :=
    [{ Bean.plain (.of "app::Store") (.main 1) (.constructor ⟨[], .part, "store", none⟩) with
      conditions := [.beans .none (.type (.of "app::Cache"))] },
    { Bean.plain (.of "app::Cache") (.main 2) (.constructor ⟨[], .part, "cache", none⟩) with
      conditions := [.not (.property "cache.off" none false)] }]
  properties := .empty
  compositions := ⟨[]⟩
  injector := .standard
  cancelled := false

theorem resolution_independent_of_order_of_standIn :
    ∃ q, outcome { standIn with beans := standIn.beans.reverse }.resolveAll
        { standIn with beans := standIn.beans.reverse }.start = (.ok (), q) ∧
      q.registry.status 1 = .deleted := by
  have hrun : outcome standIn.resolveAll standIn.start =
      (.ok (), (outcome standIn.resolveAll standIn.start).2) := Prod.ext (by decide +kernel) rfl
  obtain ⟨q, hq, -, hsame⟩ := resolution_independent_of_order standIn standIn.beans.reverse
    (List.reverse_perm _) (by decide +kernel) _ hrun (by decide +kernel)
  refine ⟨q, hq, ?_⟩
  rw [(hsame 0 1 _ rfl rfl).1]
  decide +kernel

end Plan
end Inversion
