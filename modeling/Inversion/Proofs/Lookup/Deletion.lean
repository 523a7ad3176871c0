/-
# Deleted beans

A bean that is deleted is in no index, and nothing indexes it later (`Registry.Gone`). So
from its deletion on, which may happen in the midst of the lookups of other beans, no
answer contains it: neither those of the scan, since they have only settled beans, nor those
of the indices.

Beans are handed to the injector only once all are resolved, and only those that are found
or still active then. These are settled, and what is settled is never deleted. `Guarded`
collects this; resolutions keep it, and so do wirings with any injector
(`endures_warded`).
-/
import Inversion.Proofs.Lookup.Steady
import Inversion.Proofs.Lookup.Telling
import Inversion.Session

namespace Inversion

/-! ### Beans that are gone -/

namespace Registry

/-- The bean is deleted and in no index. -/
structure Gone (b : Nat) (r : Registry) : Prop where
  registered : b < r.marks.length
  deleted : r.status b = .deleted
  typed : ∀ t, b ∉ r.typed t
  named : ∀ n, b ∉ r.named n

namespace Gone

variable {r r' : Registry} {b c : Nat}

theorem ne (h : r.Gone b) (hc : r.status c ≠ .deleted) : b ≠ c := by
  rintro rfl
  exact hc h.deleted

theorem setStatus (h : r.Gone b) (hc : b ≠ c) (s : Status) : (r.setStatus c s).Gone b where
  registered := (length_setStatus r c s).symm ▸ h.registered
  deleted := (status_setStatus_of_ne r c b s hc).trans h.deleted
  typed := h.typed
  named := h.named

theorem indexType (h : r.Gone b) (hc : b ≠ c) (t : TypeName) : (r.indexType t c).Gone b where
  registered := h.registered
  deleted := h.deleted
  typed u := by
    rw [mem_typed]
    intro hin
    rcases List.mem_append.mp hin with hin | hin
    · exact h.typed u (mem_typed.mpr hin)
    · exact hc (Prod.mk.inj (List.mem_singleton.mp hin)).2
  named := h.named

theorem indexName (h : r.Gone b) (hc : b ≠ c) (n : String) : (r.indexName n c).Gone b where
  registered := h.registered
  deleted := h.deleted
  typed := h.typed
  named m := by
    rw [mem_named]
    intro hin
    rcases List.mem_append.mp hin with hin | hin
    · exact h.named m (mem_named.mpr hin)
    · exact hc (Prod.mk.inj (List.mem_singleton.mp hin)).2

theorem steady (h : r.Gone b) (hr : r.Steady r') : r'.Gone b where
  registered := hr.length.symm ▸ h.registered
  deleted := (hr.status_eq_iff rfl b).mpr h.deleted
  typed t := by
    rw [mem_typed, hr.byType, ← mem_typed]
    exact h.typed t
  named n := by
    rw [mem_named, hr.byName, ← mem_named]
    exact h.named n

/-- The indices do not answer with it. -/
theorem not_mem_lookup (h : r.Gone b) (plan : Plan) (sel : Selector) : b ∉ plan.lookup r sel := by
  match sel with
  | .name n => exact h.named n
  | .type t => exact h.typed t
  | .typedName t n => exact fun hb => h.named n (List.mem_filter.mp hb).1
  | .parsed text (some n) => exact fun hb => h.named n (List.mem_filter.mp hb).1
  | .parsed text none => exact fun hb => mem_active.mp (List.mem_filter.mp hb).1 h.deleted

end Gone
end Registry

/-- A bean that is not settled is in no index, so it is gone if it is deleted. -/
theorem Plan.Indexed.gone {plan : Plan} {r r' : Registry} {b : Nat} (h : plan.Indexed r)
    (hb : (r.status b).isSettled = false) (hl : b < r'.marks.length) (hd : r'.status b = .deleted)
    (ht : r'.byType = r.byType) (hn : r'.byName = r.byName) : r'.Gone b where
  registered := hl
  deleted := hd
  typed t := by
    rw [Registry.mem_typed, ht, ← Registry.mem_typed, h.mem_typed t, hb]
    exact fun hin => Bool.false_ne_true hin.1
  named n := by
    rw [Registry.mem_named, hn, ← Registry.mem_named, h.mem_named n, hb]
    exact fun hin => Bool.false_ne_true hin.1

theorem Registry.Told.steady {n : Nat} {es : List Event} {r r' : Registry} (h : r.Told n es)
    (hr : r.Steady r') : r'.Told n es where
  length := hr.length.trans h.length
  settled b := by rw [h.settled, hr.isSettled]
  deleted b hb := (h.deleted b hb).trans (hr.status_eq_iff rfl b).symm

/-! ### What resolutions keep -/

/-- What no change ends of a bean that is neither settled nor deleted. -/
structure Stays (R : Registry → Prop) : Prop where
  setStatus : ∀ r c s, (r.status c).isSettled = false → r.status c ≠ .deleted → R r →
    R (r.setStatus c s)
  setExports : ∀ r c exports, (r.status c).isSettled = false → r.status c ≠ .deleted → R r →
    R (r.setExports c exports)
  indexType : ∀ r c t, (r.status c).isSettled = false → r.status c ≠ .deleted → R r →
    R (r.indexType t c)
  indexName : ∀ r c n, (r.status c).isSettled = false → r.status c ≠ .deleted → R r →
    R (r.indexName n c)
  removeId : ∀ r id, R r → R (r.removeId id)

theorem stays_gone (b : Nat) : Stays (Registry.Gone b) where
  setStatus _ _ s _ hd h := h.setStatus (h.ne hd) s
  setExports r c exports _ _ h := ⟨(Registry.length_setExports r c exports).symm ▸ h.registered,
    (Registry.status_setExports r c b exports).trans h.deleted, h.typed, h.named⟩
  indexType _ _ t _ hd h := h.indexType (h.ne hd) t
  indexName _ _ n _ hd h := h.indexName (h.ne hd) n
  removeId _ _ h := ⟨h.registered, h.deleted, h.typed, h.named⟩

theorem stays_settled (b : Nat) : Stays fun r => (r.status b).isSettled where
  setStatus r c s hc _ h := by
    have hne : b ≠ c := by
      rintro rfl
      rw [hc] at h
      cases h
    rwa [Registry.status_setStatus_of_ne r c b s hne]
  setExports r c exports _ _ h := by rwa [Registry.status_setExports]
  indexType _ _ _ _ _ h := h
  indexName _ _ _ _ _ h := h
  removeId _ _ h := h

namespace Plan

variable {plan : Plan} {E : Event → Prop} {R : Registry → Prop}

/-- What holds since an event, if the only such events of a resolution are that a bean is
deleted or settled. -/
theorem persists_hence (h : Stays R)
    (hE : ∀ e, e.IsOfResolution → E e → ∃ b, e = .status b .deleted ∨ e = .status b .resolved)
    (hdeleted : ∀ (p : Progress) b, plan.Indexed p.registry → p.registry.status b = .resolving →
      E (.status b .deleted) → R (plan.discard b p).registry)
    (hsettled : ∀ (p : Progress) b bean exports, plan.beans[b]? = some bean →
      b < p.registry.marks.length → plan.Indexed (settle b bean exports p).registry →
        E (.status b .resolved) → R (settle b bean exports p).registry) :
    plan.Persists fun p => plan.Indexed p.registry ∧ Hence E R p where
  note p e he hp := by
    refine ⟨hp.1, hp.2.note fun hEe => ?_⟩
    obtain ⟨b, rfl | rfl⟩ := hE e he.isOfResolution hEe
    · exact he.elim
    · exact he.elim
  begin p b hb hp := by
    refine ⟨(persists_indexed plan).begin p b hb hp.1, ?_⟩
    refine (hp.2.update (h.setStatus _ b _ (by rw [hb]; rfl) (by rw [hb]; decide))).note fun hEe => ?_
    obtain ⟨_, he | he⟩ := hE (.status b .resolving) ⟨nofun, nofun⟩ hEe <;> cases he
  settle p b bean exports hbean hb he hp := by
    have hdone := (persists_indexed plan).settle p b bean exports hbean hb he hp.1
    refine ⟨hdone, ?_⟩
    have hpending : ∀ {r : Registry}, r.status b = .resolving →
        (r.status b).isSettled = false ∧ r.status b ≠ .deleted := by
      intro r hr
      rw [hr]
      exact ⟨rfl, nofun⟩
    have hnoted : ∀ {q : Progress} {e : Event}, e.IsIndexing → Hence E R q → Hence E R (q.note e) := by
      intro q e hi hq
      refine hq.note fun hEe => ?_
      obtain ⟨_, rfl | rfl⟩ := hE e hi.isOfResolution hEe
      · exact hi.elim
      · exact hi.elim
    obtain ⟨hindexed, hstatus⟩ : Hence E R (index b bean exports p) ∧
        (index b bean exports p).registry.status b = .resolving :=
      index_induction b bean exports p
        (P := fun q => Hence E R q ∧ q.registry.status b = .resolving)
        (fun q t ⟨hq, hs⟩ => ⟨hnoted (by trivial)
          (hq.update (h.indexType _ b t (hpending hs).1 (hpending hs).2)), hs⟩)
        (fun q n ⟨hq, hs⟩ => ⟨hnoted (by trivial)
          (hq.update (h.indexName _ b n (hpending hs).1 (hpending hs).2)), hs⟩) ⟨hp.2, hb⟩
    have hexported := hindexed.update
      (h.setExports _ b exports (hpending hstatus).1 (hpending hstatus).2)
    have hs : ((index b bean exports p).registry.setExports b exports).status b = .resolving := by
      rwa [Registry.status_setExports]
    exact (hexported.update (h.setStatus _ b .resolved (hpending hs).1 (hpending hs).2)).note
      (hsettled p b bean exports hbean (Registry.lt_length_of_status_eq hb (by decide)) hdone)
  discard p b hb hp := by
    refine ⟨(persists_indexed plan).discard p b hb hp.1, ?_⟩
    have hremoved := hp.2.update (h.removeId _ (plan.idOf b))
    have hs : (p.registry.removeId (plan.idOf b)).status b = .resolving := hb
    refine Hence.note ((hremoved.update (h.setStatus _ b .deleted (by rw [hs]; rfl)
      (by rw [hs]; decide))).note (hdeleted p b hp.1 hb)) fun hEe => ?_
    obtain ⟨_, he | he⟩ := hE (.deleted (plan.idOf b)) trivial hEe <;> cases he

theorem persists_gone (b : Nat) : plan.Persists fun p =>
    plan.Indexed p.registry ∧ Hence (· = .status b .deleted) (Registry.Gone b) p := by
  refine persists_hence (stays_gone b) (fun e _ he => ⟨b, .inl he⟩) (fun p c hi hc he => ?_)
    fun _ _ _ _ _ _ _ he => by cases he
  cases he
  have hlt : b < p.registry.marks.length := Registry.lt_length_of_status_eq hc (by decide)
  exact hi.gone (by rw [hc]; rfl) (length_discard b p plan ▸ hlt) (status_discard_self b p plan hlt)
    rfl rfl

/-- Resolutions neither hand beans to the injector nor receive any. -/
theorem persists_settled (b : Nat) (hE : ∀ e, e.IsOfResolution → ¬ E e) : plan.Persists fun p =>
    plan.Indexed p.registry ∧ Hence E (fun r => (r.status b).isSettled) p :=
  persists_hence (stays_settled b) (fun e he hEe => absurd hEe (hE e he))
    (fun _ b _ _ hEe => absurd hEe (hE (.status b .deleted) ⟨nofun, nofun⟩))
    fun _ b _ _ _ _ _ hEe => absurd hEe (hE (.status b .resolved) ⟨nofun, nofun⟩)

end Plan

/-! ### What is guarded -/

/-- The bean is handed to the injector when all beans are resolved, and so is this one. -/
def Moment.Handing (m : Moment) (earlier : List Moment) : Prop :=
  ∀ b, m.event = .handed b → (∃ m' ∈ earlier, m'.event = .beansResolved) ∧ m.registry.Decided ∧
    (m.registry.status b).isSettled ∧ ∃ m' ∈ earlier, m'.event = .status b .resolved

/-- The bean that has been deleted. -/
def Event.deleted? : Event → Option Nat
  | status b .deleted => some b
  | _ => none

theorem Event.deleted?_eq_some {e : Event} {b : Nat} (h : e.deleted? = some b) :
    e = .status b .deleted := by
  unfold deleted? at h
  split at h
  · cases h
    rfl
  · cases h

/-- Events that decide no bean, hand none to the injector and receive none. -/
def Event.IsAloof : Event → Prop
  | status _ .resolved => False
  | status _ .deleted => False
  | handed _ => False
  | received _ _ => False
  | _ => True

theorem Event.IsReport.isAloof {e : Event} (h : e.IsReport) : e.IsAloof := by
  cases e <;> trivial

theorem Event.IsAfterword.isAloof {e : Event} (h : e.IsAfterword) : e.IsAloof := by
  cases e <;> trivial

theorem Event.IsAloof.not_isDecision {e : Event} (h : e.IsAloof) : ¬ e.IsDecision := by
  rintro hd
  cases e with
  | status b s => cases s <;> first | exact h | exact hd
  | _ => exact hd

/-- Deleted beans are gone, settled ones have been resolved, and only those are handed to the
injector or received. -/
structure Guarded (plan : Plan) (p : Progress) : Prop where
  indexed : plan.Indexed p.registry
  gone : ∀ b, Hence (· = .status b .deleted) (Registry.Gone b) p
  told : p.registry.Told plan.beans.length p.events
  handing : Throughout Moment.Handing p.history
  handed : ∀ b, Hence (· = .handed b) (fun r => (r.status b).isSettled) p
  received : ∀ asker b, Hence (· = .received asker b) (fun r => (r.status b).isSettled) p

namespace Guarded

variable {plan : Plan} {p : Progress} {r : Registry} {b : Nat}

theorem persists : plan.Persists (Guarded plan) := by
  have hhanding : plan.Persists fun p => Throughout Moment.Handing p.history :=
    Plan.persists_throughout fun m ms hm b hb => by
      rw [hb] at hm
      exact hm.elim
  have hhanded : plan.Persists fun p => ∀ b, plan.Indexed p.registry ∧
      Hence (· = .handed b) (fun r => (r.status b).isSettled) p :=
    .all fun b => Plan.persists_settled b fun e he hE => by
      rw [hE] at he
      exact he
  have hreceived : plan.Persists fun p => ∀ x : Asker × Nat, plan.Indexed p.registry ∧
      Hence (· = .received x.1 x.2) (fun r => (r.status x.2).isSettled) p :=
    .all fun x => Plan.persists_settled x.2 fun e he hE => by
      rw [hE] at he
      exact he
  refine ((Plan.persists_indexed plan).and ((Plan.Persists.all Plan.persists_gone).and
    ((Plan.persists_told plan).and (hhanding.and (hhanded.and hreceived))))).congr
      fun p => ⟨fun h => ?_, fun h => ?_⟩
  · obtain ⟨hi, hg, hr, hh, hd, hc⟩ := h
    exact ⟨hi, fun b => (hg b).2, hr, hh, fun b => (hd b).2, fun asker b => (hc (asker, b)).2⟩
  · exact ⟨h.indexed, fun b => ⟨h.indexed, h.gone b⟩, h.told, h.handing,
      fun b => ⟨h.indexed, h.handed b⟩, fun x => ⟨h.indexed, h.received x.1 x.2⟩⟩

theorem note (h : Guarded plan p) {e : Event} (he : e.IsAloof) : Guarded plan (p.note e) where
  indexed := h.indexed
  gone b := (h.gone b).note fun hE => by
    rw [hE] at he
    exact he.elim
  told := h.told.note he.not_isDecision
  handing := ⟨fun b hb => by rw [show e = .handed b from hb] at he; exact he.elim, h.handing⟩
  handed b := (h.handed b).note fun hE => by
    rw [hE] at he
    exact he.elim
  received asker b := (h.received asker b).note fun hE => by
    rw [hE] at he
    exact he.elim

theorem steady (h : Guarded plan p) (hr : p.registry.Steady r) :
    Guarded plan { p with registry := r } where
  indexed := h.indexed.steady hr
  gone b := (h.gone b).update fun hg => hg.steady hr
  told := h.told.steady hr
  handing := h.handing
  handed b := (h.handed b).update fun hs => by rwa [hr.isSettled]
  received asker b := (h.received asker b).update fun hs => by rwa [hr.isSettled]

/-- The instances may be counted anew. -/
theorem recount (h : Guarded plan p) (n : Nat) : Guarded plan { p with made := n } where
  indexed := h.indexed
  gone b := ⟨(h.gone b).current, (h.gone b).since⟩
  told := h.told
  handing := h.handing
  handed b := ⟨(h.handed b).current, (h.handed b).since⟩
  received asker b := ⟨(h.received asker b).current, (h.received asker b).since⟩

theorem of_frozen (h : Container.Frozen plan p) : Guarded plan p := by
  have haloof : ∀ e ∈ p.events, e.IsAfterword := fun e he => (h.aside e he).isAfterword
  have hnone : ∀ {E : Event → Prop} {R : Registry → Prop}, (∀ e, E e → ¬ e.IsAfterword) →
      Hence E R p := fun hE => .of_none fun e he hEe => hE e hEe (haloof e he)
  have htold : p.registry.Told plan.beans.length p.events := by
    rw [h.registry]
    exact .of_none (fun e he => (haloof e he).isAloof.not_isDecision) plan.beans
  refine ⟨h.indexed, fun b => hnone ?_, htold, .of_forall fun m hm ms b hb => ?_,
    fun b => hnone ?_, fun asker b => hnone ?_⟩
  · rintro e rfl
    exact id
  · have := haloof m.event (List.mem_map_of_mem hm)
    rw [hb] at this
    exact this.elim
  · rintro e rfl
    exact id
  · rintro e rfl
    exact id

/-- A bean that is handed to the injector is deleted at no time. -/
theorem not_deleted_of_handed (h : Guarded plan p) {later earlier : List Moment} {m : Moment}
    (hp : p.history = later ++ m :: earlier) (hm : m.event = .handed b) :
    .status b .deleted ∉ p.events := by
  intro hdel
  have hnow : (p.registry.status b).isSettled := (h.handed b).of_moment hp hm (.inl rfl)
  exact Status.ne_deleted_of_isSettled hnow ((h.gone b).current ⟨_, hdel, rfl⟩).deleted

/-- From its deletion on, a bean is in no answer of a lookup, and nobody receives it. -/
theorem absent_since (h : Guarded plan p) (hf : Faithful plan p) {later earlier : List Moment}
    {m m' : Moment} (hp : p.history = later ++ m :: earlier) (hm : m.event = .status b .deleted)
    (hm' : m' ∈ later) : (∀ sel away found, m'.event = .lookedUp sel away found → b ∉ found) ∧
      ∀ asker, m'.event ≠ .received asker b := by
  have hgone : m'.registry.Gone b := (h.gone b).of_moment hp hm (.inr (.inr ⟨m', hm', rfl⟩))
  refine ⟨fun sel away found hlook hb => ?_, fun asker hrec => ?_⟩
  · have hsettled := (hf.exact m' (by rw [hp]; simp [hm']) sel away found hlook).2 b hb
    exact Status.ne_deleted_of_isSettled hsettled hgone.deleted
  · obtain ⟨after, before, hsplit⟩ := List.append_of_mem hm'
    have hp' : p.history = after ++ m' :: (before ++ m :: earlier) := by
      rw [hp, hsplit, List.append_assoc, List.cons_append]
    have hsettled : (m'.registry.status b).isSettled :=
      (h.received asker b).of_moment hp' hrec (.inr (.inl rfl))
    exact Status.ne_deleted_of_isSettled hsettled hgone.deleted

end Guarded

/-- Of the plan only the beans and the compositions matter. -/
theorem Guarded.congr {plan plan' : Plan} {p : Progress} (h : Guarded plan p)
    (hb : plan'.beans = plan.beans) (hc : plan'.compositions = plan.compositions) :
    Guarded plan' p :=
  ⟨h.indexed.congr hb hc, h.gone, hb ▸ h.told, h.handing, h.handed, h.received⟩

/-! ### Wirings -/

namespace Plan

variable {plan : Plan} {r : Registry} {p : Progress}

/-- A guarded progress behind the end of the resolution. -/
structure Warded (plan : Plan) (r : Registry) (p : Progress) : Prop where
  behind : plan.Behind r p
  guarded : Guarded plan p
  ended : .beansResolved ∈ p.events

theorem Warded.note (h : plan.Warded r p) {e : Event} (he : e.IsReport) :
    plan.Warded r (p.note e) where
  behind := h.behind.note he.not_isLookup
  guarded := h.guarded.note he.isAloof
  ended := List.mem_cons_of_mem e h.ended

theorem endures_warded (hprop : ∀ bean ∈ plan.beans, Condition.AllPropagate bean.conditions)
    (hr : r.Decided) :
    plan.Endures (fun a => plan.Warded r a.progress) fun b => (r.status b).isSettled where
  progress a a' h ha := by rwa [h]
  note a e he ha := ha.note he.isReport
  handed a b hb ha := by
    have hs : (a.registry.status b).isSettled := (ha.behind.2.settled b hb).1
    have hd : a.registry.Decided := fun c =>
      (hr c).imp (fun hc => (ha.behind.2.settled c hc).1) (ha.behind.2.deleted c)
    have hg := ha.guarded
    refine ⟨ha.behind.note id, ⟨hg.indexed, fun c => (hg.gone c).note nofun,
      hg.told.note id, ⟨fun c hc => ?_, hg.handing⟩,
      fun c => (hg.handed c).note fun hc => ?_, fun asker c => (hg.received asker c).note nofun⟩,
      List.mem_cons_of_mem _ ha.ended⟩
    · cases hc
      exact ⟨List.mem_map.mp ha.ended, hd, hs, List.mem_map.mp ((hg.told.settled b).mpr hs)⟩
    · cases hc
      exact hs
  received a asker b hb ha := by
    have hs : (a.registry.status b).isSettled := (ha.behind.2.settled b hb).1
    have hg := ha.guarded
    refine ⟨ha.behind.note id, ⟨hg.indexed, fun c => (hg.gone c).note nofun,
      hg.told.note id, ⟨nofun, hg.handing⟩,
      fun c => (hg.handed c).note nofun, fun other c => (hg.received other c).note fun hc => ?_⟩,
      List.mem_cons_of_mem _ ha.ended⟩
    cases hc
    exact hs
  count a n ha := ⟨(endures_behind hprop hr).count a n ha.behind, ha.guarded.recount n, ha.ended⟩
  begin a b hb ha := by
    have hs : (a.registry.status b).isSettled := (ha.behind.2.settled b hb).1
    exact ⟨(endures_behind hprop hr).begin a b hb ha.behind,
      (ha.guarded.steady (.setStatus hs rfl)).note (e := .status b .creating) trivial,
      List.mem_cons_of_mem _ ha.ended⟩
  hold a b i hb ha := by
    have hheld : a.registry.Steady (a.registry.setHeld b i) := .setHeld _ b i
    have hs : ((a.registry.setHeld b i).status b).isSettled := by
      rw [hheld.isSettled]
      exact (ha.behind.2.settled b hb).1
    exact ⟨(endures_behind hprop hr).hold a b i hb ha.behind,
      (ha.guarded.steady (hheld.trans (.setStatus hs rfl))).note (e := .status b .wired) trivial,
      List.mem_cons_of_mem _ ha.ended⟩
  find sel a ha := by
    have hended : plan.Persists fun p => .beansResolved ∈ p.events :=
      persists_events (P := fun es => .beansResolved ∈ es) fun e _ _ h => List.mem_cons_of_mem e h
    have hkept := (find_keeps (Guarded.persists.and hended) sel).after ⟨ha.guarded, ha.ended⟩
    have hfound := (endures_behind hprop hr).find sel a ha.behind
    rw [after_ofResolving] at hfound ⊢
    exact (hfound.and hkept).mono fun x q ⟨⟨hb, hF⟩, hg, he⟩ => ⟨⟨hb, hg, he⟩, hF⟩
  reach _ _ hb ha := ha.behind.settled hr hb

theorem refresh_guarded (hprop : ∀ bean ∈ plan.beans, Condition.AllPropagate bean.conditions)
    (h : Container.Frozen plan p) (configurations : List Configuration) :
    After (plan.refresh configurations) (.start p) fun _ t => Guarded plan t.progress := by
  have hkept := (resolveAll_keeps Guarded.persists).after (Guarded.of_frozen h)
  have hfaithful := resolveAll_faithful hprop h.faithful (h.status_ne (by decide) (by decide))
  refine refresh_keeps configurations ((hkept.and hfaithful).mono fun x q ⟨hg, hf, hd⟩ => ?_)
  cases x with
  | error cause => exact hg
  | ok _ =>
    have hd : q.registry.Decided := hd rfl
    refine ⟨_, (endures_warded hprop hd).outlasts (fun a e he ha => ha.note he)
        fun a ha b hb => .inl ?_,
      ⟨⟨hf.note id, .refl _⟩, hg.note trivial, List.mem_cons_self⟩, fun a ha => ha.guarded⟩
    exact (hd b).resolve_right fun hdel =>
      Registry.mem_active.mp hb (ha.behind.2.deleted b hdel)

end Plan

/-! ### Containers -/

/-- The beans that the answer to a question is about. -/
def Plan.asked (plan : Plan) (r : Registry) : Question → List Nat
  | .find sel => plan.lookup r sel
  | .one t => plan.lookup r (.type t)
  | .named t n => plan.lookup r (.typedName t n)
  | .every t => plan.lookup r (.type t)
  | _ => []

/-- The answer to a question that is about the beans of a list. Other questions are answered
without the registry. -/
def Plan.answerOf (plan : Plan) (r : Registry) (properties : Properties) (bs : List Nat)
    (question : Question) : Value :=
  match question with
  | .find _ => .list (bs.map fun b => .text (plan.idOf b))
  | .one t => errorOr .whole (plan.singleInstance r t bs)
  | .named t _ => errorOr .whole (plan.singleInstance r t bs)
  | .every t => errorOr (fun is => .list (is.map .whole)) (plan.allInstances r t bs)
  | question => plan.answer (.ofBeans []) properties question

theorem Plan.answer_eq (plan : Plan) (r : Registry) (properties : Properties)
    (question : Question) :
    plan.answer r properties question =
      plan.answerOf r properties (plan.asked r question) question := by
  cases question <;> rfl

theorem Registry.Gone.not_asked {r : Registry} {b : Nat} (h : r.Gone b) (plan : Plan)
    (question : Question) : b ∉ plan.asked r question := by
  match question with
  | .find sel => exact h.not_mem_lookup plan sel
  | .one t => exact h.not_mem_lookup plan (.type t)
  | .named t n => exact h.not_mem_lookup plan (.typedName t n)
  | .every t => exact h.not_mem_lookup plan (.type t)
  | .property _ | .cancelled | .keys => exact List.not_mem_nil

/-- A session lists all beans of its container. -/
theorem Session.report_mem {s : Session} {c : Container} (hs : s.container = c) {b : Nat} {bean : Bean}
    (hb : c.beans[b]? = some bean) : ∃ reports, (s.performLive .beans).1 = .beans reports ∧
      Session.report c b bean ∈ reports := by
  subst hs
  exact ⟨_, rfl, List.mem_map.mpr ⟨(bean, b), List.mem_zipIdx_iff_getElem?.mpr hb, rfl⟩⟩

namespace Container

theorem lasts_guarded : Lasts fun plan p =>
    (∀ bean ∈ plan.beans, Condition.AllPropagate bean.conditions) → Guarded plan p where
  congr _ _ hb hc _ _ h hprop := (h (hb ▸ hprop)).congr hb hc
  note he h hprop := (h hprop).note he.isAloof
  start h _ := .of_frozen h
  refresh h configurations hprop := Plan.refresh_guarded hprop h configurations
  find sel h hprop := (Plan.find_keeps Guarded.persists sel).after (h hprop)

/-- A lookup does not find a deleted bean, in whatever phase. -/
theorem not_mem_find {c : Container} (hn : c.phase ≠ .unrefreshed) (hg : Guarded c.plan c.progress)
    (hprop : ∀ bean ∈ c.beans, Condition.AllPropagate bean.conditions)
    (hf : Faithful c.plan c.progress) {b : Nat} (hnow : c.registry.Gone b)
    (hdel : .status b .deleted ∈ c.events) {sel : Selector} {found : List Nat}
    (hfound : (c.find sel).1 = .ok (.ok found)) : b ∉ found := by
  cases hphase : c.phase with
  | unrefreshed => exact absurd hphase hn
  | refreshed =>
    unfold find at hfound
    rw [hphase] at hfound
    cases hfound
    exact hnow.not_mem_lookup c.plan sel
  | refreshing =>
    have hstays : c.plan.Persists fun p => .status b .deleted ∈ p.events :=
      Plan.persists_events (P := fun es => .status b .deleted ∈ es)
        fun e _ _ h => List.mem_cons_of_mem e h
    have hkept := (Plan.find_keeps (Guarded.persists.and hstays) sel).after ⟨hg, hdel⟩
    have hexact := Plan.find_faithful hprop hf sel
    unfold find at hfound
    rw [hphase] at hfound
    intro hb
    have hsettled := (hexact.2.2 found (Except.ok.inj hfound)).2 b hb
    have hgone := (hkept.1.gone b).current ⟨_, hkept.2, rfl⟩
    exact Status.ne_deleted_of_isSettled hsettled hgone.deleted

/-- With any injector, if no condition goes on after a failed lookup: a bean is handed to the
injector only when the resolution of all beans has ended, and only if it has been
resolved and is deleted at no time. And once a bean is deleted, it is still listed, and no later
answer is about it: neither that of the indices at any moment, which is what windows and
lookups after the refresh go by, nor that of a lookup during the refresh; and nobody receives
it. -/
theorem deleted_never_served (injector : Injector) (compositions : Compositions)
    (ops : List Operation) :
    let c := ((empty injector compositions).performAll ops).2
    (∀ bean ∈ c.beans, Condition.AllPropagate bean.conditions) →
      (∀ later m earlier b, c.progress.history = later ++ m :: earlier → m.event = .handed b →
        (∃ m' ∈ earlier, m'.event = .beansResolved) ∧ m.registry.Decided ∧
        (m.registry.status b).isSettled ∧ (∃ m' ∈ earlier, m'.event = .status b .resolved) ∧
        .status b .deleted ∉ c.events) ∧
      ∀ later m earlier b, c.progress.history = later ++ m :: earlier →
        m.event = .status b .deleted →
        (∃ bean, c.beans[b]? = some bean ∧ (Session.report c b bean).status = .deleted ∧
          ∀ s : Session, s.container = c → ∃ reports, (s.performLive .beans).1 = .beans reports ∧
            Session.report c b bean ∈ reports) ∧
        (∀ r, (r = c.registry ∨ r = m.registry ∨ ∃ m' ∈ later, r = m'.registry) →
          r.status b = .deleted ∧ ∀ plan : Plan, (∀ sel, b ∉ plan.lookup r sel) ∧
            ∀ properties question, ∃ bs, b ∉ bs ∧
              plan.answer r properties question = plan.answerOf r properties bs question) ∧
        (∀ m' ∈ later, (∀ sel away found, m'.event = .lookedUp sel away found → b ∉ found) ∧
          ∀ asker, m'.event ≠ .received asker b) ∧
        (∀ sel found, (c.find sel).1 = .ok (.ok found) → b ∉ found) ∧
        (∀ t, ∃ bs, b ∉ bs ∧ c.get t =
          c.whenRefreshed "get" fun () => c.plan.singleInstance c.registry t bs) ∧
        (∀ t name, ∃ bs, b ∉ bs ∧ c.getNamed t name =
          c.whenRefreshed "get_named" fun () => c.plan.singleInstance c.registry t bs) ∧
        ∀ t, ∃ bs, b ∉ bs ∧ c.getAll t =
          c.whenRefreshed "get_all" fun () => c.plan.allInstances c.registry t bs := by
  intro c hprop
  have h : Has _ c := performAll_lasts lasts_guarded injector compositions ops
  have ha : Answers c := performAll_answers injector compositions ops
  have hbegun : ∀ e ∈ c.events, ¬ e.IsAside → c.phase ≠ .unrefreshed := fun e he hne hn =>
    hne (h.new hn e he)
  have hin : ∀ {later m earlier}, c.progress.history = later ++ m :: earlier →
      m.event ∈ c.events := by
    intro later m earlier hp
    rw [events, Progress.events, hp]
    simp
  refine ⟨fun later m earlier b hp hm => ?_, fun later m earlier b hp hm => ?_⟩
  · have hn := hbegun m.event (hin hp) (by rw [hm]; exact id)
    have hg : Guarded c.plan c.progress := h.since hn hprop
    have hhanding := hg.handing
    rw [hp] at hhanding
    obtain ⟨hended, hdecided, hsettled, hresolved⟩ := hhanding.moment b hm
    exact ⟨hended, hdecided, hsettled, hresolved, hg.not_deleted_of_handed hp hm⟩
  · have hn := hbegun m.event (hin hp) (by rw [hm]; exact id)
    have hg : Guarded c.plan c.progress := h.since hn hprop
    have hf : Faithful c.plan c.progress := ha.faithful hn hprop
    have hgone : ∀ r, (r = c.registry ∨ r = m.registry ∨ ∃ m' ∈ later, r = m'.registry) →
        r.Gone b := fun r hr => (hg.gone b).of_moment hp hm hr
    have hnow : c.registry.Gone b := hgone c.registry (.inl rfl)
    refine ⟨?_, fun r hr => ⟨(hgone r hr).deleted, fun plan => ⟨(hgone r hr).not_mem_lookup plan,
      fun properties question => ⟨plan.asked r question, (hgone r hr).not_asked plan question,
        plan.answer_eq r properties question⟩⟩⟩, fun m' hm' => hg.absent_since hf hp hm hm', ?_,
      fun t => ⟨_, hnow.not_mem_lookup c.plan (.type t), rfl⟩,
      fun t name => ⟨_, hnow.not_mem_lookup c.plan (.typedName t name), rfl⟩,
      fun t => ⟨_, hnow.not_mem_lookup c.plan (.type t), rfl⟩⟩
    · have hlt : b < c.beans.length := by
        have hlen : c.registry.marks.length = c.beans.length := hg.indexed.length
        exact hlen ▸ hnow.registered
      have hbean : c.beans[b]? = some c.beans[b] := List.getElem?_eq_getElem hlt
      exact ⟨c.beans[b], hbean, hnow.deleted, fun s hs => Session.report_mem hs hbean⟩
    · intro sel found hfound
      exact not_mem_find hn hg hprop hf hnow (by rw [← hm]; exact hin hp) hfound

/-- A service, a handler for a pool that is missing, and a log. -/
def unserved : List Bean :=
  let bean (type : String) (n : Nat) (args : List Arg) : Bean :=
    Bean.plain (.of type) (.main n) (.constructor ⟨args, .part, type, none⟩)
  [bean "app::Service" 1 [.every (.of "app::Handler")],
    { bean "app::Handler" 2 [] with conditions := [.beans .some (.type (.of "app::Pool"))] },
    bean "app::Log" 3 []]

/-- The log is wired ahead of the service, by the injector that gets it then, and the handler is
handed to nobody. -/
theorem deleted_never_served_of_unserved :
    let injector := Injector.leading (.of "app::Log")
    let c := ((empty injector ⟨[]⟩).performAll (unserved.map .register ++ [.refresh])).2
    c.phase = .refreshed ∧ .received (.injector 0) 2 ∈ c.events ∧ .status 1 .deleted ∈ c.events ∧
      .handed 1 ∉ c.events ∧ ∀ sel, 1 ∉ c.plan.lookup c.registry sel := by
  intro injector
  have hserved := deleted_never_served injector ⟨[]⟩ (unserved.map .register ++ [.refresh])
  have hphase : ((empty injector ⟨[]⟩).performAll
      (unserved.map .register ++ [.refresh])).2.phase = .refreshed := by decide +kernel
  have hplain : ((empty injector ⟨[]⟩).performAll (unserved.map .register ++ [.refresh])).2.beans.all
      fun bean => Condition.arePlain bean.conditions := by decide +kernel
  have hreceived : .received (.injector 0) 2 ∈ ((empty injector ⟨[]⟩).performAll
      (unserved.map .register ++ [.refresh])).2.events := by decide +kernel
  have hany : ((empty injector ⟨[]⟩).performAll
      (unserved.map .register ++ [.refresh])).2.progress.history.any
        fun m => m.event.deleted? = some 1 := by decide +kernel
  -- the run is done, and what is left does not look into it
  generalize ((empty injector ⟨[]⟩).performAll (unserved.map .register ++ [.refresh])).2 = c
    at hserved hphase hplain hreceived hany ⊢
  have hprop : ∀ bean ∈ c.beans, Condition.AllPropagate bean.conditions := fun bean hbean =>
    Condition.allPropagate_of_arePlain _ (List.all_eq_true.mp hplain bean hbean)
  obtain ⟨hguarded, hdeleted⟩ := hserved hprop
  obtain ⟨m, hin, hm⟩ := List.any_eq_true.mp hany
  have hm : m.event = .status 1 .deleted := Event.deleted?_eq_some (of_decide_eq_true hm)
  obtain ⟨later, earlier, hp⟩ := List.append_of_mem hin
  have hdel : .status 1 .deleted ∈ c.events := List.mem_map.mpr ⟨m, hin, hm⟩
  have hhanded : .handed 1 ∉ c.events := by
    intro h
    obtain ⟨m', hin', hm'⟩ := List.mem_map.mp h
    obtain ⟨later', earlier', hp'⟩ := List.append_of_mem hin'
    exact (hguarded later' m' earlier' 1 hp' hm').2.2.2.2 hdel
  have hgone := (hdeleted later m earlier 1 hp hm).2.1 c.registry (.inl rfl)
  exact ⟨hphase, hreceived, hdel, hhanded, (hgone.2 c.plan).1⟩

end Container
end Inversion
