/-
# Resolutions and verdicts

As long as no lookup meets a bean that is being resolved, a resolution decides its bean
as the verdict says (`resolve_sure`). By the end of a lookup all beans that could match
are decided, so the lookup has counted what a round of verdicts counts, and a condition
comes to what is foretold.
-/
import Inversion.Proofs.Lookup.Nesting
import Inversion.Proofs.Lookup.Verdict

namespace Inversion

def Event.isSkip : Event → Bool
  | skipped _ _ => true
  | _ => false

namespace Progress

/-- A lookup has met a bean that was being resolved. -/
def Skipped (p : Progress) : Prop :=
  ∃ e ∈ p.events, e.isSkip

instance (p : Progress) : Decidable p.Skipped :=
  inferInstanceAs (Decidable (∃ e ∈ p.events, e.isSkip))

theorem Skipped.note {p : Progress} (h : p.Skipped) (e : Event) : (p.note e).Skipped := by
  obtain ⟨e', hin, he'⟩ := h
  exact ⟨e', List.mem_cons_of_mem e hin, he'⟩

theorem skipped_note {p : Progress} {e : Event} (h : e.isSkip = false) :
    (p.note e).Skipped ↔ p.Skipped := by
  refine ⟨fun ⟨e', hin, he'⟩ => ?_, fun hp => hp.note e⟩
  rcases List.mem_cons.mp hin with he | hin
  · rw [he, h] at he'
    cases he'
  · exact ⟨e', hin, he'⟩

end Progress

namespace Plan

variable {plan : Plan} {resolve : Nat → Resolving Unit} {n k : Nat} {away : List Nat}
  {sel : Selector}

theorem persists_skipped : plan.Persists Progress.Skipped :=
  persists_events (P := fun es => ∃ e ∈ es, e.isSkip)
    fun e _ _ ⟨e', hin, he'⟩ => ⟨e', List.mem_cons_of_mem e hin, he'⟩

theorem skipped_discard {b : Nat} {p : Progress} : (plan.discard b p).Skipped ↔ p.Skipped :=
  (Progress.skipped_note (e := .deleted (plan.idOf b)) rfl).trans
    (Progress.skipped_note (p := { p with registry := _ }) (e := .status b .deleted) rfl)

theorem skipped_settle {b : Nat} {bean : Bean} {exports : List TypeName} {p : Progress} :
    (settle b bean exports p).Skipped ↔ p.Skipped := by
  obtain ⟨-, ms, hhistory, hms⟩ := index_spec b bean exports p
  have hindex : (index b bean exports p).Skipped ↔ p.Skipped := by
    unfold Progress.Skipped Progress.events
    rw [hhistory, List.map_append]
    refine ⟨fun ⟨e, hin, he⟩ => ?_, fun ⟨e, hin, he⟩ => ⟨e, List.mem_append_right _ hin, he⟩⟩
    refine ⟨e, (List.mem_append.mp hin).resolve_left fun hin => ?_, he⟩
    obtain ⟨m, hm, rfl⟩ := List.mem_map.mp hin
    have hi := (hms m hm).1
    cases hme : m.event <;> rw [hme] at hi he <;> first | exact hi | cases he
  exact (Progress.skipped_note (p := { index b bean exports p with registry := _ })
    (e := .status b .resolved) rfl).trans hindex

/-- The verdicts on the decided beans are what their statuses say. -/
def Justified (plan : Plan) (r : Registry) : Prop :=
  ∀ b bean, plan.beans[b]? = some bean →
    ((r.status b).isSettled → ∃ k, plan.verdict k bean = some true) ∧
      (r.status b = .deleted → ∃ k, plan.verdict k bean = some false)

/-! ### Counting -/

/-- One round has all the verdicts that rounds have. -/
theorem exists_round {P : Bean → Prop} : ∀ {beans : List Bean},
    (∀ bean ∈ beans, P bean → ∃ k v, plan.verdict k bean = some v) →
      ∃ k, ∀ bean ∈ beans, P bean → (plan.verdict k bean).isSome
  | [], _ => ⟨0, fun bean hbean => absurd hbean List.not_mem_nil⟩
  | bean :: beans, h => by
    obtain ⟨k, hk⟩ := exists_round fun bean' hbean' => h bean' (List.mem_cons_of_mem _ hbean')
    have hlift : ∀ {k' bean' v}, plan.verdict k' bean' = some v → ∀ k'', k' ≤ k'' →
        (plan.verdict k'' bean').isSome := fun hv k'' hle => by
      rw [verdict_mono hle _ _ hv]
      rfl
    by_cases hP : P bean
    · obtain ⟨k', v, hv⟩ := h bean List.mem_cons_self hP
      refine ⟨max k k', fun bean' hbean' hP' => ?_⟩
      rcases List.mem_cons.mp hbean' with rfl | hbean'
      · exact hlift hv _ (Nat.le_max_right k k')
      · obtain ⟨v', hv'⟩ := Option.isSome_iff_exists.mp (hk bean' hbean' hP')
        exact hlift hv' _ (Nat.le_max_left k k')
    · refine ⟨k, fun bean' hbean' hP' => ?_⟩
      rcases List.mem_cons.mp hbean' with rfl | hbean'
      · exact absurd hP' hP
      · exact hk bean' hbean' hP'

theorem length_filter_range {α : Type} (f : α → Bool) : ∀ as : List α,
    ((List.range as.length).filter fun i => (as[i]?).any f).length = as.countP f
  | [] => rfl
  | a :: as => by
    have ih := length_filter_range f as
    rw [List.length_cons, List.range_succ_eq_map, List.filter_cons, List.filter_map, List.countP_cons]
    have hshift : ((fun i => ((a :: as)[i]?).any f) ∘ Nat.succ) = fun i => (as[i]?).any f := by
      funext i
      simp
    rw [hshift]
    by_cases ha : f a
    · simp [ha, ih]
    · simp [ha, ih]

/-- If all beans that could match are decided, those that match are counted. -/
theorem Justified.tally {r : Registry} (h : plan.Justified r)
    (hdecided : ∀ b, plan.mayMatch sel b → (r.status b).isSettled ∨ r.status b = .deleted) :
    ∃ k, plan.tally (plan.verdict k) sel = some ((List.range plan.beans.length).filter
      fun b => r.status b ≠ .deleted ∧ plan.answersTo sel b).length := by
  have hverdict : ∀ b bean, plan.beans[b]? = some bean → sel.mayMatch bean →
      ∃ k, plan.verdict k bean = some (decide (r.status b ≠ .deleted)) := by
    intro b bean hbean hmay
    have hmay : plan.mayMatch sel b := by
      unfold mayMatch
      rw [hbean]
      exact hmay
    rcases hdecided b hmay with hs | hd
    · rw [decide_eq_true (Status.ne_deleted_of_isSettled hs)]
      exact (h b bean hbean).1 hs
    · rw [hd]
      exact (h b bean hbean).2 hd
  obtain ⟨k, hk⟩ := @exists_round plan (fun bean => sel.mayMatch bean) plan.beans
    fun bean hbean hmay => by
      obtain ⟨b, hb⟩ := List.getElem?_of_mem hbean
      obtain ⟨k, hv⟩ := hverdict b bean hb hmay
      exact ⟨k, _, hv⟩
  refine ⟨k, tally_eq_some.mpr ⟨hk, ?_⟩⟩
  rw [← length_filter_range]
  refine congrArg List.length (List.filter_congr fun b hb => ?_)
  obtain ⟨bean, hbean⟩ : ∃ bean, plan.beans[b]? = some bean :=
    ⟨_, List.getElem?_eq_getElem (List.mem_range.mp hb)⟩
  unfold answersTo
  rw [hbean, Option.any_some, Option.any_some]
  by_cases ha : plan.answers sel bean
  · obtain ⟨v, hv⟩ := Option.isSome_iff_exists.mp
      (hk bean (List.mem_of_getElem? hbean) (mayMatch_of_answers ha))
    obtain ⟨k', hv'⟩ := hverdict b bean hbean (mayMatch_of_answers ha)
    rw [hv, verdict_unique hv hv', ha]
    by_cases hd : r.status b = .deleted <;> simp [hd]
  · simp [ha]

/-! ### Lookups and conditions -/

/-- The beans of `away` are being resolved and the decided ones as their verdicts say,
unless a lookup has met one that was being resolved. -/
def Sure (plan : Plan) (away : List Nat) (n : Nat) (p : Progress) : Prop :=
  p.Skipped ∨ plan.During away n p ∧ plan.Justified p.registry

theorem Sure.note {p : Progress} (h : plan.Sure away n p) {e : Event} (he : ¬ e.IsLookup) :
    plan.Sure away n (p.note e) :=
  h.imp (fun hs => hs.note e) fun h => ⟨h.1.note he, h.2⟩

/-- The lookup has met no bean that was being resolved, if that was never met. -/
theorem scan_skips (h : plan.Resolves resolve n) (hkeep : ∀ b, Keeps Progress.Skipped (resolve b)) :
    ∀ (bs : List Nat) (p : Progress), plan.During away n p →
      After (plan.scan resolve sel bs) p fun r q =>
        ∀ found, r = .ok found → ∀ b ∈ bs, b ∈ away → q.Skipped
  | [], _, _ => fun _ _ b hb => absurd hb List.not_mem_nil
  | b :: bs, p, hp => by
    rw [scan, after_bind, after_get, continues_ok]
    by_cases hr : p.registry.status b = .resolving
    · rw [if_pos hr, after_bind, after_modify, continues_ok]
      have hskipped : (p.note (.skipped (plan.idOf b) sel)).Skipped :=
        ⟨.skipped (plan.idOf b) sel, List.mem_cons_self, rfl⟩
      have hkept : Keeps Progress.Skipped (plan.scan resolve sel bs) :=
        scan_carries (fun q _ hq => hq.note _) hkeep bs
      exact (hkept.after hskipped).mono fun r q hq _ _ _ _ _ => hq
    · rw [if_neg hr, after_bind]
      refine (h away b p hp).mono fun r q hresolved => ?_
      obtain ⟨-, -, hok⟩ := hresolved
      cases r with
      | error e => exact fun found hf => by cases hf
      | ok _ =>
        rw [continues_ok, after_bind, after_get, continues_ok, after_bind]
        refine (scan_skips h hkeep bs q (hok rfl).1).mono fun r t ht => ?_
        cases r with
        | error e => exact fun found hf => by cases hf
        | ok found =>
          rw [continues_ok, after_pure]
          intro found' _ c hc hca
          rcases List.mem_cons.mp hc with rfl | hc
          · exact absurd ((hp.2 c).mpr hca) hr
          · exact ht found rfl c hc hca

theorem findWith_skips (h : plan.Resolves resolve n) (hkeep : ∀ b, Keeps Progress.Skipped (resolve b))
    {p : Progress} (hp : plan.Within n p) :
    After (plan.findWith resolve sel) p fun r q => ∀ found, r = .ok found →
      ∀ b ∈ p.registry.resolving, plan.mayMatch sel b → q.Skipped := by
  unfold findWith
  rw [after_bind, after_get, continues_ok, after_bind]
  refine (scan_skips h hkeep (plan.candidates p.registry sel) p hp.during).mono fun r q hq => ?_
  cases r with
  | error e => exact fun found hf => by cases hf
  | ok found =>
    rw [continues_ok, after_bind, after_modify, continues_ok, after_pure]
    intro found' _ b hb hmay
    have hstatus : p.registry.status b = .resolving := Registry.mem_resolving.mp hb
    have hactive : b ∈ p.registry.active := Registry.mem_active.mpr (by rw [hstatus]; decide)
    exact Progress.Skipped.note (hq found rfl b (List.mem_filter.mpr ⟨hactive, hmay⟩) hb) _

/-- A lookup counts what a round of verdicts counts. -/
theorem findWith_told (h : plan.Resolves resolve n) (hkeep : ∀ b, Keeps Progress.Skipped (resolve b))
    (hsure : ∀ away b, Carries (plan.Sure away n) (fun _ => True) (resolve b)) {p : Progress}
    (hp : plan.Sure away n p) :
    After (plan.findWith resolve sel) p fun r q => (p.Skipped → q.Skipped) ∧
      ∀ found, r = .ok found → plan.Sure away n q ∧
        (¬ q.Skipped → ∃ k, plan.tally (plan.verdict k) sel = some found.length) := by
  have hskipped : p.Skipped → After (plan.findWith resolve sel) p fun _ q => q.Skipped := fun hs =>
    (findWith_carries (fun q _ hq => hq.note _) (fun q _ _ hq => hq.note _) hkeep p hs).mono
      fun _ _ hq => split_same.mp hq
  by_cases hs : p.Skipped
  · exact (hskipped hs).mono fun r q hq =>
      ⟨fun _ => hq, fun _ _ => ⟨.inl hq, fun hnot => absurd hq hnot⟩⟩
  obtain ⟨hd, -⟩ := hp.resolve_left hs
  have hjustified : After (plan.findWith resolve sel) p fun r q => ∀ found, r = .ok found →
      q.Skipped ∨ plan.Justified q.registry := by
    unfold findWith
    rw [after_bind, after_get, continues_ok, after_bind]
    refine (scan_carries (fun q _ hq => hq.note id) (hsure away) _ p hp).mono fun r q hq => ?_
    cases r with
    | error e => exact fun found hf => by cases hf
    | ok found => exact fun _ _ => hq.imp (fun hs => hs.note _) And.right
  refine (((findWith_exact h hd.1).and (findWith_skips h hkeep hd.1)).and hjustified).mono
    fun r q ⟨⟨⟨_, _, hexact⟩, hskips⟩, hright⟩ => ⟨fun hp => absurd hp hs, fun found hf => ?_⟩
  obtain ⟨hq, ⟨earlier, hhistory⟩, -, hdecided⟩ := hexact found hf
  have hsure : plan.Sure away n q :=
    (hright found hf).imp_right fun hj =>
      ⟨⟨hq.1, fun b => (hq.2 b).trans (Registry.mem_resolving.trans (hd.2 b))⟩, hj⟩
  refine ⟨hsure, fun hnot => ?_⟩
  have haway : ∀ b, plan.mayMatch sel b → b ∉ p.registry.resolving := fun b hmay hb =>
    hnot (hskips found hf b hb hmay)
  have htally := Justified.tally ((hright found hf).resolve_left hnot)
    fun b hmay => hdecided b hmay (haway b hmay)
  obtain ⟨hfound, -⟩ := hq.1.1.exact _ (by rw [hhistory]; exact List.mem_cons_self) _ _ _ rfl
  have hsame : found = (List.range plan.beans.length).filter fun b =>
      q.registry.status b ≠ .deleted ∧ plan.answersTo sel b := by
    refine hfound.trans (List.filter_congr fun b _ => ?_)
    refine decide_eq_decide.mpr ⟨And.right, fun hb => ⟨?_, hb⟩⟩
    exact haway b (mayMatch_of_answersTo hb.2)
  rwa [hsame]

/-! ### Conditions -/

/-- Lookups come to what a round of verdicts counts. -/
structure Tells (plan : Plan) (find : Selector → Checking (List Nat)) (J : Progress → Prop) :
    Prop where
  note : ∀ p e, e.IsCheck → J p → J (p.note e)
  find : ∀ sel p, J p → After (find sel) p fun r q => (p.Skipped → q.Skipped) ∧
    ∀ found, r = .ok found → J q ∧
      (¬ q.Skipped → ∃ k, plan.tally (plan.verdict k) sel = some found.length)

/-- What is expected of some counts is expected of more. -/
def Steady (expected : (Selector → Option Nat) → Option Bool) : Prop :=
  ∀ {count count'}, Extends count count' → ∀ b, expected count = some b → expected count' = some b

/-- What a check comes to, told by a round of verdicts; `p` is before and `q` behind it. -/
def Told (plan : Plan) (J : Progress → Prop) (p : Progress)
    (expected : (Selector → Option Nat) → Option Bool) (r : Except Fault Bool) (q : Progress) :
    Prop :=
  (p.Skipped → q.Skipped) ∧ ∀ v, r = .ok v → J q ∧
    (¬ q.Skipped → ∃ k, expected (plan.tally (plan.verdict k)) = some v)

section
variable {find : Selector → Checking (List Nat)} {J : Progress → Prop} {p q t : Progress}

/-- What an answer tells, if what is expected is the answer in any round. -/
theorem told_answer {expected : (Selector → Option Nat) → Option Bool} {b : Bool} (hq : J q)
    (hpq : p.Skipped → q.Skipped) (h : ∀ count, expected count = some b) :
    plan.Told J p expected (.ok b) q := by
  refine ⟨hpq, fun v hv => ⟨hq, fun _ => ⟨0, ?_⟩⟩⟩
  rw [h]
  exact congrArg some (Except.ok.inj hv)

/-- A check whose answer may depend on that of one before. -/
theorem told_bind {x : Checking Bool} {f : Bool → Checking Bool}
    {first : (Selector → Option Nat) → Option Bool}
    (next : Bool → (Selector → Option Nat) → Option Bool) (hfirst : Steady first)
    (hnext : ∀ b, Steady (next b)) (hx : After x p (plan.Told J p first))
    (hf : ∀ b q, J q → After (f b) q (plan.Told J q (next b))) :
    After (x >>= f) p (plan.Told J p fun count => (first count).bind fun b => next b count) := by
  rw [after_bind]
  refine hx.mono fun r q ⟨hpq, hq⟩ => ?_
  cases r with
  | error e => exact ⟨hpq, fun v hv => by cases hv⟩
  | ok b =>
    obtain ⟨hJ, hb⟩ := hq b rfl
    rw [continues_ok]
    refine (hf b q hJ).mono fun r t ⟨hqt, ht⟩ => ⟨hqt ∘ hpq, fun v hv => ?_⟩
    obtain ⟨hJ, hv⟩ := ht v hv
    refine ⟨hJ, fun hnot => ?_⟩
    obtain ⟨k, hk⟩ := hb fun hs => hnot (hqt hs)
    obtain ⟨k', hk'⟩ := hv hnot
    have hk := hfirst (tally_mono (verdict_mono (Nat.le_max_left k k'))) b hk
    have hk' := hnext b (tally_mono (verdict_mono (Nat.le_max_right k k'))) v hk'
    exact ⟨max k k', Option.bind_eq_some_iff.mpr ⟨b, hk, hk'⟩⟩

mutual
/-- A plain condition comes to what a round of verdicts foretells. -/
theorem Condition.holds_told (h : plan.Tells find J) : ∀ c : Condition, c.isPlain → ∀ p, J p →
    After (c.holds plan find) p (plan.Told J p fun count => c.foretell plan.properties count)
  | .property key value ifMissing, _, p, hp => by
    simp only [Condition.holds, after_bind, after_modify, continues_ok, after_pure]
    exact told_answer (h.note p _ (by trivial) hp) (fun hs => hs.note _) fun _ => rfl
  | .missingProperty key, _, p, hp => by
    simp only [Condition.holds, after_bind, after_modify, continues_ok, after_pure]
    exact told_answer (h.note p _ (by trivial) hp) (fun hs => hs.note _) fun _ => rfl
  | .beans expectation sel, _, p, hp => by
    simp only [Condition.holds, after_bind, after_modify, continues_ok]
    refine (h.find sel _ (h.note p (.test (.beans sel)) (by trivial) hp)).mono
      fun r q ⟨hpq, hq⟩ => ?_
    cases r with
    | error e => exact ⟨fun hs => hpq (hs.note _), fun v hv => by cases hv⟩
    | ok found =>
      obtain ⟨hJ, hfound⟩ := hq found rfl
      refine ⟨fun hs => hpq (hs.note _), fun v hv => ⟨hJ, fun hnot => ?_⟩⟩
      obtain ⟨k, hk⟩ := hfound hnot
      refine ⟨k, ?_⟩
      show (plan.tally (plan.verdict k) sel).map expectation.met = some v
      rw [hk]
      exact congrArg some (Except.ok.inj hv)
  | .not c, hc, p, hp => by
    simp only [Condition.holds]
    exact told_bind (fun b _ => some !b) (fun h b => Condition.foretell_mono h c b)
      (fun _ _ _ _ _ hv => hv) (Condition.holds_told h c hc p hp)
      fun b q hq => told_answer hq id fun _ => rfl
  | .all cs, hcs, p, hp => by
    simp only [Condition.holds]
    exact allHold_told h cs hcs p hp
  | .any cs, hcs, p, hp => by
    simp only [Condition.holds]
    exact anyHolds_told h cs hcs p hp

theorem allHold_told (h : plan.Tells find J) : ∀ cs : List Condition, Condition.arePlain cs →
    ∀ p, J p → After (allHold plan find cs) p
      (plan.Told J p fun count => foretellAll plan.properties count cs)
  | [], _, p, hp => told_answer hp id fun _ => rfl
  | c :: cs, hcs, p, hp => by
    obtain ⟨hc, hcs⟩ := (Bool.and_eq_true _ _).mp hcs
    simp only [allHold]
    refine told_bind
      (fun b count => if b then foretellAll plan.properties count cs else some false)
      (fun h b => Condition.foretell_mono h c b) ?_ (Condition.holds_told h c hc p hp) ?_
    · intro b count count' hcount v hv
      cases b with
      | true => exact foretellAll_mono hcount cs v hv
      | false => exact hv
    · intro b q hq
      cases b with
      | true => exact allHold_told h cs hcs q hq
      | false => exact told_answer hq id fun _ => rfl

theorem anyHolds_told (h : plan.Tells find J) : ∀ cs : List Condition, Condition.arePlain cs →
    ∀ p, J p → After (anyHolds plan find cs) p
      (plan.Told J p fun count => foretellAny plan.properties count cs)
  | [], _, p, hp => told_answer hp id fun _ => rfl
  | c :: cs, hcs, p, hp => by
    obtain ⟨hc, hcs⟩ := (Bool.and_eq_true _ _).mp hcs
    simp only [anyHolds]
    refine told_bind
      (fun b count => if b then some true else foretellAny plan.properties count cs)
      (fun h b => Condition.foretell_mono h c b) ?_ (Condition.holds_told h c hc p hp) ?_
    · intro b count count' hcount v hv
      cases b with
      | true => exact hv
      | false => exact foretellAny_mono hcount cs v hv
    · intro b q hq
      cases b with
      | true => exact told_answer hq id fun _ => rfl
      | false => exact anyHolds_told h cs hcs q hq
end

end

/-! ### Resolutions -/

/-- A change to a bean, if its verdict is what its new status says. -/
theorem Justified.change {r r' : Registry} {b : Nat} (h : plan.Justified r)
    (hsame : ∀ c, c ≠ b → r'.status c = r.status c)
    (hb : ∀ bean, plan.beans[b]? = some bean →
      ((r'.status b).isSettled → ∃ k, plan.verdict k bean = some true) ∧
        (r'.status b = .deleted → ∃ k, plan.verdict k bean = some false)) :
    plan.Justified r' := by
  intro c bean hbean
  by_cases hcb : c = b
  · subst hcb
    exact hb bean hbean
  · rw [hsame c hcb]
    exact h c bean hbean

theorem Justified.begin {r : Registry} {b : Nat} (h : plan.Justified r)
    (hlt : b < r.marks.length) : plan.Justified (r.setStatus b .resolving) := by
  refine h.change (fun c hc => Registry.status_setStatus_of_ne r b c _ hc) fun bean _ => ?_
  rw [Registry.status_setStatus_self r b _ hlt]
  exact ⟨fun hs => (by cases hs), fun hd => (by cases hd)⟩

theorem Justified.discard {p : Progress} {b : Nat} {bean : Bean} (h : plan.Justified p.registry)
    (hb : p.registry.status b = .resolving) (hbean : plan.beans[b]? = some bean)
    (hv : plan.verdict k bean = some false) : plan.Justified (plan.discard b p).registry := by
  refine h.change (fun c hc => status_discard_of_ne b c p plan hc) fun bean' hbean' => ?_
  rw [status_discard_self b p plan (Registry.lt_length_of_status_eq hb (by decide)),
    ← Option.some.inj (hbean.symm.trans hbean')]
  exact ⟨fun hs => (by cases hs), fun _ => ⟨k, hv⟩⟩

theorem Justified.settle {p : Progress} {b : Nat} {bean : Bean} (h : plan.Justified p.registry)
    (hb : p.registry.status b = .resolving) (hbean : plan.beans[b]? = some bean)
    (hv : plan.verdict k bean = some true) (exports : List TypeName) :
    plan.Justified (Plan.settle b bean exports p).registry := by
  refine h.change (fun c hc => status_settle_of_ne b c bean exports p hc) fun bean' hbean' => ?_
  rw [status_settle_self b bean exports p (Registry.lt_length_of_status_eq hb (by decide)),
    ← Option.some.inj (hbean.symm.trans hbean')]
  exact ⟨fun _ => ⟨k, hv⟩, fun hd => (by cases hd)⟩

theorem tells_seek (h : plan.Resolves (plan.resolve n) n)
    (hsure : ∀ away b, Carries (plan.Sure away n) (fun _ => True) (plan.resolve n b))
    (away : List Nat) : plan.Tells (plan.seek n) (plan.Sure away n) where
  note _ _ he hp := hp.note (Event.IsCheck.not_isLookup he)
  find sel p hp := by
    unfold seek
    rw [after_adapt]
    refine (findWith_told h (resolve_keeps persists_skipped n) hsure hp).mono
      fun r q ⟨hpq, hq⟩ => ⟨hpq, fun found hf => ?_⟩
    cases r with
    | error e => cases hf
    | ok found' =>
      cases hf
      exact hq found rfl

theorem check_told {bean : Bean} (hplain : Condition.arePlain bean.conditions)
    (h : plan.Tells (plan.seek n) (plan.Sure away n)) {p : Progress} (hp : plan.Sure away n p) :
    After (plan.check n bean) p fun r q => ∀ v, r = .ok v → plan.Sure away n q ∧
      (¬ q.Skipped → ∃ k, foretellAll plan.properties (plan.tally (plan.verdict k))
        bean.conditions = some v) := by
  unfold check
  rw [after_adapt]
  refine (allHold_told h bean.conditions hplain p hp).mono fun r q ⟨_, hq⟩ v hv => ?_
  cases r with
  | error e => cases hv
  | ok v' =>
    cases hv
    exact hq v rfl

/-- A resolution decides its bean as the verdict says. -/
theorem resolve_sure (hplain : ∀ bean ∈ plan.beans, Condition.arePlain bean.conditions) :
    ∀ n away b, Carries (plan.Sure away n) (fun _ => True) (plan.resolve n b)
  | 0, _, _ => carries_pure ()
  | n + 1, away, b => by
    intro p hp
    have hprop : ∀ bean ∈ plan.beans, Condition.AllPropagate bean.conditions := fun bean hbean =>
      Condition.allPropagate_of_arePlain _ (hplain bean hbean)
    by_cases hs : p.Skipped
    · refine (resolve_keeps persists_skipped (n + 1) b p hs).mono fun r q hq => ?_
      cases r with
      | error e => trivial
      | ok _ => exact .inl hq
    obtain ⟨hd, hj⟩ := hp.resolve_left hs
    suffices h : After (plan.resolve (n + 1) b) p fun r q =>
        r = .ok () → q.Skipped ∨ plan.Justified q.registry by
      refine ((resolve_faithful hprop (n + 1) away b p hd).and h).mono
        fun r q ⟨⟨_, _, hdecided⟩, hq⟩ => ?_
      cases r with
      | error e => trivial
      | ok _ => exact (hq rfl).imp_right fun hj => ⟨(hdecided rfl).1, hj⟩
    by_cases hb : p.registry.status b = .fresh
    · obtain ⟨bean, hbean⟩ := hd.1.1.sound.exists_bean (by rw [hb]; decide)
      have hlt : b < p.registry.marks.length := Registry.lt_length_of_status_eq hb (by decide)
      have hbegun : plan.Sure (p.setStatus b .resolving).registry.resolving n
          (p.setStatus b .resolving) := .inr ⟨(hd.1.begin hb).during, hj.begin hlt⟩
      have hcheck : After (plan.check n bean) _ _ :=
        check_told (hplain bean (List.mem_of_getElem? hbean))
          (tells_seek (resolve_faithful hprop n) (resolve_sure hplain n) _) hbegun
      refine after_resolve hbean hb hcheck (fun q hq v hv => ?_) (fun e q _ h => (by cases h))
        (fun e q _ _ h => (by cases h)) (fun q hq hr _ => ?_) fun exports q hq hr he _ => ?_
      · obtain ⟨hsure, hverdict⟩ := hq v hv
        exact ⟨hsure.note id, fun hnot => hverdict fun hs => hnot (hs.note _)⟩
      · obtain ⟨hsure, hverdict⟩ := hq false rfl
        by_cases hqs : q.Skipped
        · exact .inl (skipped_discard.mpr hqs)
        obtain ⟨k, hk⟩ := hverdict hqs
        exact .inr ((hsure.resolve_left hqs).2.discard hr hbean
          (verdict_eq_some.mpr ⟨hk, by simp⟩))
      · obtain ⟨hsure, hverdict⟩ := hq true rfl
        by_cases hqs : q.Skipped
        · exact .inl (skipped_settle.mpr hqs)
        obtain ⟨k, hk⟩ := hverdict hqs
        exact .inr ((hsure.resolve_left hqs).2.settle hr hbean
          (verdict_eq_some.mpr ⟨hk, fun _ => ⟨exports, he⟩⟩) exports)
    · rw [resolve_of_begun hb]
      exact fun _ => .inr hj

end Plan
end Inversion
