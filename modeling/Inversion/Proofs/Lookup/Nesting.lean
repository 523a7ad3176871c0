/-
# Lookups inside conditions

Lookups resolve, resolutions evaluate conditions, and conditions look up, so all three
stand inside one another. The induction is on the number of fresh beans, which bounds
the nesting (`resolve_faithful`). What carries it is that a resolution which succeeds
leaves the same beans being resolved as before, and its own bean decided; one that
fails may leave more.
-/
import Inversion.Proofs.Lookup.Bound
import Inversion.Proofs.Lookup.Faithful

namespace Inversion

/-- Every bean is settled or deleted. -/
def Registry.Decided (r : Registry) : Prop :=
  ∀ b, (r.status b).isSettled ∨ r.status b = .deleted

theorem Event.IsCheck.not_isLookup {e : Event} (h : e.IsCheck) : ¬ e.IsLookup := by
  cases e <;> first | exact id | exact fun _ => h

namespace Plan

variable {plan : Plan} {resolve : Nat → Resolving Unit} {n : Nat} {away : List Nat} {sel : Selector}

/-- A faithful progress with at most `n` fresh beans. -/
def Within (plan : Plan) (n : Nat) (p : Progress) : Prop :=
  Faithful plan p ∧ (p.registry.having Status.isFresh).card ≤ n

/-- And with the beans of `away` being resolved. -/
def During (plan : Plan) (away : List Nat) (n : Nat) (p : Progress) : Prop :=
  plan.Within n p ∧ ∀ b, p.registry.status b = .resolving ↔ b ∈ away

/-- With at most `n` fresh beans, `resolve` decides a bean, or fails. -/
def Resolves (plan : Plan) (resolve : Nat → Resolving Unit) (n : Nat) : Prop :=
  ∀ away b p, plan.During away n p → After (resolve b) p fun r q =>
    plan.Within n q ∧ p.registry.Later q.registry ∧
      (r = .ok () → plan.During away n q ∧ q.registry.status b ≠ .fresh)

theorem Within.note {p : Progress} (h : plan.Within n p) {e : Event} (he : ¬ e.IsLookup) :
    plan.Within n (p.note e) :=
  ⟨h.1.note he, h.2⟩

theorem During.note {p : Progress} (h : plan.During away n p) {e : Event} (he : ¬ e.IsLookup) :
    plan.During away n (p.note e) :=
  ⟨h.1.note he, h.2⟩

theorem Within.weaken {p : Progress} (h : plan.Within n p) : plan.Within (n + 1) p :=
  ⟨h.1, Nat.le_succ_of_le h.2⟩

theorem Within.during {p : Progress} (h : plan.Within n p) :
    plan.During p.registry.resolving n p :=
  ⟨h, fun _ => Registry.mem_resolving.symm⟩

theorem isSettled_of_decided {s : Status} (hf : s ≠ .fresh) (hr : s ≠ .resolving) :
    s.isSettled ∨ s = .deleted := by
  cases s with
  | fresh => exact absurd rfl hf
  | resolving => exact absurd rfl hr
  | deleted => exact .inr rfl
  | _ => exact .inl rfl

/-! ### Scans -/

/-- A scan that succeeds finds what it should, by the registry behind it. -/
def Scanned (plan : Plan) (sel : Selector) (away : List Nat) (n : Nat) (bs found : List Nat)
    (q : Progress) : Prop :=
  plan.During away n q ∧
    found = bs.filter (fun b =>
      b ∉ away ∧ q.registry.status b ≠ .deleted ∧ plan.answersTo sel b) ∧
    ∀ b ∈ bs, b ∉ away → (q.registry.status b).isSettled ∨ q.registry.status b = .deleted

theorem Scanned.pass {bs found : List Nat} {q : Progress} (h : plan.Scanned sel away n bs found q)
    {b : Nat} (hb : b ∈ away) : plan.Scanned sel away n (b :: bs) found q := by
  obtain ⟨hd, hfilter, hall⟩ := h
  refine ⟨hd, ?_, fun c hc hca => ?_⟩
  · rw [hfilter, List.filter_cons, if_neg (by simp [hb])]
  · rcases List.mem_cons.mp hc with rfl | hc
    · exact absurd hb hca
    · exact hall c hc hca

/-- What is seen of a bean once it is decided is what it is at the end. -/
theorem Scanned.cons {bs found : List Nat} {q t : Progress} (h : plan.Scanned sel away n bs found t)
    {b : Nat} (hnot : b ∉ away) (hsound : plan.Sound q.registry)
    (hdecided : (q.registry.status b).isSettled ∨ q.registry.status b = .deleted)
    (hl : q.registry.Later t.registry) : plan.Scanned sel away n (b :: bs)
      (if q.registry.status b ≠ .deleted ∧ plan.selects q.registry sel b then b :: found else found)
      t := by
  obtain ⟨hd, hfilter, hall⟩ := h
  have hsame : (q.registry.status b ≠ .deleted ∧ plan.selects q.registry sel b) ↔
      (t.registry.status b ≠ .deleted ∧ plan.answersTo sel b) := by
    rcases hdecided with hs | hdel
    · have hnow := Status.ne_deleted_of_isSettled hs
      have hthen := Status.ne_deleted_of_isSettled (hl.settled b hs).1
      rw [hsound.answersTo hs sel]
      exact and_congr_left fun _ => iff_of_true hnow hthen
    · have hthen := hl.deleted b hdel
      exact iff_of_false (fun h => h.1 hdel) fun h => h.1 hthen
  refine ⟨hd, ?_, fun c hc hca => ?_⟩
  · rw [List.filter_cons, hfilter]
    by_cases hb : q.registry.status b ≠ .deleted ∧ plan.selects q.registry sel b
    · have hb' := hsame.mp hb
      rw [if_pos hb, if_pos (by simpa [hnot] using hb')]
    · have hb' := fun h => hb (hsame.mpr h)
      rw [if_neg hb, if_neg (by simpa [hnot] using hb')]
  · rcases List.mem_cons.mp hc with rfl | hc
    · exact hdecided.imp (fun hs => (hl.settled c hs).1) (hl.deleted c)
    · exact hall c hc hca

theorem scan_exact (h : plan.Resolves resolve n) :
    ∀ (bs : List Nat) (p : Progress), plan.During away n p →
      After (plan.scan resolve sel bs) p fun r q => plan.Within n q ∧ p.registry.Later q.registry ∧
        ∀ found, r = .ok found → plan.Scanned sel away n bs found q
  | [], p, hp => by
    refine ⟨hp.1, .refl _, fun found hf => ?_⟩
    cases hf
    exact ⟨hp, rfl, fun b hb => absurd hb List.not_mem_nil⟩
  | b :: bs, p, hp => by
    rw [scan, after_bind, after_get, continues_ok]
    by_cases hr : p.registry.status b = .resolving
    · rw [if_pos hr, after_bind, after_modify, continues_ok]
      refine (scan_exact h bs _ (hp.note id)).mono fun r q hrest => ?_
      obtain ⟨hq, hl, hfound⟩ := hrest
      exact ⟨hq, hl, fun found hf => (hfound found hf).pass ((hp.2 b).mp hr)⟩
    · have hnot : b ∉ away := fun hb => hr ((hp.2 b).mpr hb)
      rw [if_neg hr, after_bind]
      refine (h away b p hp).mono fun r q hresolved => ?_
      obtain ⟨hq, hl, hok⟩ := hresolved
      cases r with
      | error e => exact ⟨hq, hl, fun found hf => by cases hf⟩
      | ok _ =>
        obtain ⟨hd, hf⟩ := hok rfl
        have hdecided := isSettled_of_decided hf fun hb => hnot ((hd.2 b).mp hb)
        rw [continues_ok, after_bind, after_get, continues_ok, after_bind]
        refine (scan_exact h bs q hd).mono fun r t hrest => ?_
        obtain ⟨ht, hl', hfound⟩ := hrest
        cases r with
        | error e => exact ⟨ht, hl.trans hl', fun found hf => by cases hf⟩
        | ok found =>
          rw [continues_ok, after_pure]
          refine ⟨ht, hl.trans hl', fun found' hf' => ?_⟩
          cases hf'
          exact (hfound found rfl).cons hnot hd.1.1.sound hdecided hl'

/-! ### Lookups -/

/-- A candidate that the scan found is what the lookup is asked for. -/
theorem filter_candidates {r r' : Registry} (hlen : r.marks.length = plan.beans.length)
    (hl : r.Later r') :
    (plan.candidates r sel).filter (fun b =>
      b ∉ away ∧ r'.status b ≠ .deleted ∧ plan.answersTo sel b) =
    (List.range plan.beans.length).filter (fun b =>
      b ∉ away ∧ r'.status b ≠ .deleted ∧ plan.answersTo sel b) := by
  unfold candidates Registry.active
  rw [List.filter_filter, List.filter_filter, hlen]
  refine List.filter_congr fun b _ => ?_
  by_cases h : b ∉ away ∧ r'.status b ≠ .deleted ∧ plan.answersTo sel b
  · have hd : r.status b ≠ .deleted := fun hd => h.2.1 (hl.deleted b hd)
    simp [h, hd, mayMatch_of_answersTo h.2.2]
  · simp [h]

/-- A lookup that succeeds is exact, and the same beans are being resolved as before. -/
theorem findWith_exact (h : plan.Resolves resolve n) {p : Progress} (hp : plan.Within n p) :
    After (plan.findWith resolve sel) p fun r q => plan.Within n q ∧ p.registry.Later q.registry ∧
      ∀ found, r = .ok found → plan.During p.registry.resolving n q ∧
        (∃ earlier, q.history = ⟨.lookedUp sel p.registry.resolving found, q.registry⟩ :: earlier) ∧
        (∀ b ∈ found, (q.registry.status b).isSettled) ∧
        ∀ b, plan.mayMatch sel b → b ∉ p.registry.resolving →
          (q.registry.status b).isSettled ∨ q.registry.status b = .deleted := by
  unfold findWith
  rw [after_bind, after_get, continues_ok, after_bind]
  refine (scan_exact h (plan.candidates p.registry sel) p hp.during).mono
    fun r q ⟨hq, hl, hfound⟩ => ?_
  cases r with
  | error e => exact ⟨hq, hl, fun found hf => by cases hf⟩
  | ok found =>
    obtain ⟨hd, hfilter, hall⟩ := hfound found rfl
    rw [continues_ok, after_bind, after_modify, continues_ok, after_pure]
    have hsettled : ∀ b ∈ found, (q.registry.status b).isSettled := by
      intro b hb
      rw [hfilter, List.mem_filter, decide_eq_true_eq] at hb
      obtain ⟨hcand, hnot, hdel, -⟩ := hb
      exact (hall b hcand hnot).resolve_right hdel
    have hexact : Moment.Exact plan
        ⟨.lookedUp sel p.registry.resolving found, q.registry⟩ := by
      intro sel' away found' he
      cases he
      refine ⟨?_, hsettled⟩
      rw [hfilter]
      exact filter_candidates hp.1.sound.length hl
    have hnoted : plan.Within n (q.note (.lookedUp sel p.registry.resolving found)) :=
      ⟨hq.1.noteExact hexact, hq.2⟩
    refine ⟨hnoted, hl, fun found' hf => ?_⟩
    cases hf
    refine ⟨⟨hnoted, hd.2⟩, ⟨q.history, rfl⟩, hsettled, fun b hmay hnot => ?_⟩
    by_cases hdel : p.registry.status b = .deleted
    · exact .inr (hl.deleted b hdel)
    · exact hall b (List.mem_filter.mpr ⟨Registry.mem_active.mpr hdel, hmay⟩) hnot

/-- Conditions are evaluated in a faithful progress. -/
theorem hosts_during (h : plan.Resolves (plan.resolve n) n) (away : List Nat) :
    Hosts (plan.seek n) (plan.During away n) (plan.Within n) where
  weaken _ hp := hp.1
  note _ _ he hp := hp.note (Event.IsCheck.not_isLookup he)
  note_failed _ _ he hp := hp.note (Event.IsCheck.not_isLookup he)
  lookup sel := by
    refine Carries.adapt (fun p hp => ?_) _
    refine (findWith_exact h hp.1).mono fun r q ⟨hq, _, hok⟩ => ?_
    cases r with
    | error e => exact hq
    | ok found =>
      obtain ⟨hd, -⟩ := hok found rfl
      exact ⟨hq, fun b => (hd.2 b).trans (Registry.mem_resolving.trans (hp.2 b))⟩
  lookup_failed sel := by
    refine Carries.adapt (fun p hp => ?_) _
    exact (findWith_exact h hp).mono fun r q ⟨hq, _⟩ => split_same.mpr hq

/-! ### Resolutions -/

theorem persists_later (r : Registry) : plan.Persists fun p => r.Later p.registry where
  note _ _ _ hp := hp
  begin p b hb hp := hp.trans (.of_pending (by rw [hb]; rfl) (by rw [hb]; decide)
    (fun c hc => Registry.status_setStatus_of_ne _ b c _ hc)
    fun c _ => Registry.exports_setStatus _ b c _)
  settle p b bean exports _ hb _ hp := hp.trans (.of_pending (by rw [hb]; rfl) (by rw [hb]; decide)
    (fun c hc => status_settle_of_ne b c bean exports p hc)
    fun c hc => exports_settle_of_ne b c bean exports p hc)
  discard p b hb hp := hp.trans (.of_pending (by rw [hb]; rfl) (by rw [hb]; decide)
    (fun c hc => status_discard_of_ne b c p plan hc) fun c _ => exports_discard b c p plan)

/-- A bean that is begun is one fresh bean less. -/
theorem Within.begin {p : Progress} {b : Nat} (h : plan.Within (n + 1) p)
    (hb : p.registry.status b = .fresh) : plan.Within n (p.setStatus b .resolving) :=
  ⟨h.1.setPending (by rw [hb]; rfl) (by rw [hb]; decide) rfl, fresh_begin h.2 hb⟩

/-- A fresh bean is decided while the others stay as they were after its conditions. -/
theorem During.decided {p q t : Progress} {b : Nat} (hp : plan.During away (n + 1) p)
    (hb : p.registry.status b = .fresh)
    (hq : plan.During (p.setStatus b .resolving).registry.resolving n q) (ht : Faithful plan t)
    (hsame : ∀ c, c ≠ b → t.registry.status c = q.registry.status c)
    (ho : t.registry.status b = .resolved ∨ t.registry.status b = .deleted) :
    plan.Within (n + 1) t ∧ plan.During away (n + 1) t ∧ t.registry.status b ≠ .fresh := by
  have haway : b ∉ away := by
    intro h
    have hr := (hp.2 b).mpr h
    rw [hb] at hr
    cases hr
  have hno : t.registry.status b ≠ .fresh ∧ t.registry.status b ≠ .resolving := by
    rcases ho with ho | ho <;> rw [ho] <;> decide
  have hsub : t.registry.having Status.isFresh ⊆ q.registry.having Status.isFresh := by
    refine Registry.having_subset rfl fun c hc => ?_
    by_cases hcb : c = b
    · rw [hcb] at hc
      rcases ho with ho | ho <;> rw [ho] at hc <;> cases hc
    · rwa [hsame c hcb] at hc
  have hin : plan.Within (n + 1) t :=
    ⟨ht, (Finset.card_le_card hsub).trans (Nat.le_succ_of_le hq.1.2)⟩
  refine ⟨hin, ⟨hin, fun c => ?_⟩, hno.1⟩
  by_cases hcb : c = b
  · rw [hcb]
    exact iff_of_false hno.2 haway
  · rw [hsame c hcb, hq.2 c, Registry.mem_resolving, Progress.registry_setStatus,
      Registry.status_setStatus_of_ne _ b c _ hcb]
    exact hp.2 c

/-- The resolution of a fresh bean, if the lookups of its conditions are exact. -/
theorem resolve_fresh (hprop : ∀ bean ∈ plan.beans, Condition.AllPropagate bean.conditions)
    (ih : plan.Resolves (plan.resolve n) n) {p : Progress} {b : Nat} (hp : plan.During away (n + 1) p)
    (hb : p.registry.status b = .fresh) :
    After (plan.resolve (n + 1) b) p fun r q => plan.Within (n + 1) q ∧
      (r = .ok () → plan.During away (n + 1) q ∧ q.registry.status b ≠ .fresh) := by
  obtain ⟨bean, hbean⟩ := hp.1.1.sound.exists_bean (by rw [hb]; decide)
  have hcheck : After (plan.check n bean) _ _ := check_carries
    (hosts_during ih (p.setStatus b .resolving).registry.resolving)
    (.inl (hprop bean (List.mem_of_getElem? hbean))) _ (hp.1.begin hb).during
  refine after_resolve hbean hb hcheck (fun q hq => hq.note id)
    (fun e q hq => ⟨Within.weaken (Within.note hq id), fun h => (by cases h)⟩)
    (fun e q hq _ => ⟨(hq.1.note id).weaken, fun h => (by cases h)⟩) (fun q hq hr => ?_)
    fun exports q hq hr he => ?_
  · have hlt : b < q.registry.marks.length := Registry.lt_length_of_status_eq hr (by decide)
    obtain ⟨hw, hd⟩ := hp.decided hb hq (hq.1.1.discard hr)
      (fun c hc => status_discard_of_ne b c q plan hc) (.inr (status_discard_self b q plan hlt))
    exact ⟨hw, fun _ => hd⟩
  · have hlt : b < q.registry.marks.length := Registry.lt_length_of_status_eq hr (by decide)
    obtain ⟨hw, hd⟩ := hp.decided hb hq (hq.1.1.settle hr hbean he)
      (fun c hc => status_settle_of_ne b c bean exports q hc)
      (.inl (status_settle_self b bean exports q hlt))
    exact ⟨hw, fun _ => hd⟩

theorem resolve_faithful (hprop : ∀ bean ∈ plan.beans, Condition.AllPropagate bean.conditions) :
    ∀ n, plan.Resolves (plan.resolve n) n
  | 0 => by
    intro away b p hp
    exact ⟨hp.1, .refl _, fun _ => ⟨hp, status_ne_of_fresh_zero hp.1.2⟩⟩
  | n + 1 => by
    intro away b p hp
    have hlater : After (plan.resolve (n + 1) b) p _ :=
      resolve_keeps (persists_later p.registry) (n + 1) b p (.refl _)
    by_cases hf : p.registry.status b = .fresh
    · have hfresh := resolve_fresh hprop (resolve_faithful hprop n) hp hf
      refine (hfresh.and hlater).mono fun r q ⟨hq, hl⟩ => ?_
      exact ⟨hq.1, (split_same (J := fun q : Progress => p.registry.Later q.registry)).mp hl, hq.2⟩
    · rw [resolve_of_begun hf]
      exact ⟨hp.1, .refl _, fun _ => ⟨hp, hf⟩⟩

/-! ### Lookups and resolutions from outside -/

theorem within_of_faithful {p : Progress} (h : Faithful plan p) :
    plan.Within plan.beans.length p :=
  ⟨h, Registry.card_having_le.trans (Nat.le_of_eq h.sound.length)⟩

section
variable (hprop : ∀ bean ∈ plan.beans, Condition.AllPropagate bean.conditions) {p : Progress}
include hprop

theorem find_faithful (h : Faithful plan p) (sel : Selector) :
    After (plan.find sel) p fun r q => Faithful plan q ∧ p.registry.Later q.registry ∧
      ∀ found, r = .ok found →
        (∃ earlier, q.history = ⟨.lookedUp sel p.registry.resolving found, q.registry⟩ :: earlier) ∧
        ∀ b ∈ found, (q.registry.status b).isSettled := by
  refine (findWith_exact (resolve_faithful hprop _) (within_of_faithful h)).mono
    fun r q ⟨hq, hl, hok⟩ => ⟨hq.1, hl, fun found hf => ?_⟩
  obtain ⟨-, hhead, hsettled, -⟩ := hok found hf
  exact ⟨hhead, hsettled⟩

/-- If all beans are resolved from the start, every bean is settled or deleted. -/
theorem resolveAll_faithful (h : Faithful plan p) (hnone : ∀ b, p.registry.status b ≠ .resolving) :
    After plan.resolveAll p fun r q => Faithful plan q ∧ (r = .ok () → q.registry.Decided) := by
  have hcarries : Carries (plan.During [] plan.beans.length) (plan.Within plan.beans.length)
      plan.resolveAll := by
    refine Carries.forM fun b _ q hq => ?_
    refine (resolve_faithful hprop _ [] b q hq).mono fun r t ⟨ht, _, hok⟩ => ?_
    cases r with
    | error e => exact ht
    | ok _ => exact (hok rfl).1
  have hstart : plan.During [] plan.beans.length p :=
    ⟨within_of_faithful h, fun b => iff_of_false (hnone b) List.not_mem_nil⟩
  refine ((hcarries p hstart).and (resolveAll_calm h.sound.length)).mono fun r q ⟨hq, hcalm⟩ => ?_
  cases r with
  | error e => exact ⟨hq.1, fun h => by cases h⟩
  | ok _ =>
    obtain ⟨hq, hsame⟩ := hq
    refine ⟨hq.1, fun _ b => isSettled_of_decided (hcalm rfl b) fun hb => ?_⟩
    exact absurd ((hsame b).mp hb) List.not_mem_nil

end

end Plan
end Inversion
