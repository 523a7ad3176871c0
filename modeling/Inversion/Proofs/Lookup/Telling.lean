/-
# What the events tell

Whether a bean has been resolved or deleted shows in the statuses that have been noted
(`Registry.Told`). Resolutions keep this, so the history also tells which beans had been
decided whenever a lookup was answered (`Progress.Told`).
-/
import Inversion.Proofs.History
import Inversion.Proofs.Lookup.Faithful

namespace Inversion

/-- The statuses that decide a bean. -/
def Event.IsDecision : Event → Prop
  | status _ .resolved => True
  | status _ .deleted => True
  | _ => False

theorem Event.IsRemark.not_isDecision {e : Event} (h : e.IsRemark) : ¬ e.IsDecision := by
  cases e <;> first | exact id | exact h.elim

theorem Event.IsIndexing.not_isDecision {e : Event} (h : e.IsIndexing) : ¬ e.IsDecision := by
  cases e <;> first | exact id | exact h.elim

/-- The events tell which of the `n` beans of a registry are settled and which are deleted. -/
structure Registry.Told (n : Nat) (es : List Event) (r : Registry) : Prop where
  length : r.marks.length = n
  settled : ∀ b, .status b .resolved ∈ es ↔ (r.status b).isSettled
  deleted : ∀ b < n, .status b .deleted ∈ es ↔ r.status b = .deleted

namespace Registry.Told

variable {n : Nat} {es es' : List Event} {r r' : Registry} {b : Nat} {s : Status}

theorem note (h : r.Told n es) {e : Event} (he : ¬ e.IsDecision) : r.Told n (e :: es) where
  length := h.length
  settled b := (List.mem_cons.trans (or_iff_right fun hb => he (by rw [← hb]; trivial))).trans
    (h.settled b)
  deleted b hb := (List.mem_cons.trans (or_iff_right fun hd => he (by rw [← hd]; trivial))).trans
    (h.deleted b hb)

/-- A bean that is not decided comes to a status, and all else stays. -/
theorem set (h : r.Told n es) (hs : (r.status b).isSettled = false) (hd : r.status b ≠ .deleted)
    (hnew : s.isSettled → s = .resolved) (hlen : r'.marks.length = r.marks.length)
    (hself : r'.status b = s) (hother : ∀ c, c ≠ b → r'.status c = r.status c)
    (hes : ∀ e : Event, e.IsDecision → (e ∈ es' ↔ e = .status b s ∨ e ∈ es)) : r'.Told n es' where
  length := hlen.trans h.length
  settled c := by
    refine (hes (.status c .resolved) trivial).trans ?_
    by_cases hc : c = b
    · subst hc
      rw [h.settled, hs, hself]
      refine ⟨fun hc => ?_, fun hc => .inl (by rw [hnew hc])⟩
      cases hc.resolve_right Bool.false_ne_true
      rfl
    · rw [h.settled, hother c hc]
      exact or_iff_right fun he => hc (Event.status.inj he).1
  deleted c hlt := by
    refine (hes (.status c .deleted) trivial).trans ?_
    by_cases hc : c = b
    · subst hc
      rw [h.deleted c hlt, hself]
      refine ⟨fun hc => ?_, fun hc => .inl (by rw [hc])⟩
      exact (Event.status.inj (hc.resolve_right hd)).2.symm
    · rw [h.deleted c hlt, hother c hc]
      exact or_iff_right fun he => hc (Event.status.inj he).1

theorem of_none (h : ∀ e ∈ es, ¬ e.IsDecision) (beans : List Bean) :
    (Registry.ofBeans beans).Told beans.length es where
  length := List.length_map ..
  settled b := by
    refine iff_of_false (fun he => h _ he trivial) ?_
    rw [status_ofBeans]
    split <;> exact Bool.false_ne_true
  deleted b hlt := by
    refine iff_of_false (fun he => h _ he trivial) ?_
    rw [status_ofBeans, if_pos hlt]
    exact nofun

end Registry.Told

/-! ### Resolutions -/

namespace Plan

theorem persists_told (plan : Plan) :
    plan.Persists fun p => p.registry.Told plan.beans.length p.events where
  note _ _ he hp := hp.note he.not_isDecision
  begin p b hb hp := by
    have hlt : b < p.registry.marks.length := Registry.lt_length_of_status_eq hb (by decide)
    refine hp.set (b := b) (s := .resolving) (by rw [hb]; rfl) (by rw [hb]; decide) nofun
      (Registry.length_setStatus _ b _) (Registry.status_setStatus_self _ b _ hlt)
      (fun c hc => Registry.status_setStatus_of_ne _ b c _ hc) fun e _ => List.mem_cons
  settle p b bean exports _ hb _ hp := by
    have hlt : b < p.registry.marks.length := Registry.lt_length_of_status_eq hb (by decide)
    obtain ⟨-, ms, hhistory, hms⟩ := index_spec b bean exports p
    refine hp.set (b := b) (s := .resolved) (by rw [hb]; rfl) (by rw [hb]; decide) (fun _ => rfl)
      (length_settle ..) (status_settle_self b bean exports p hlt)
      (fun c hc => status_settle_of_ne b c bean exports p hc) fun e he => ?_
    have hevents : (settle b bean exports p).events =
        .status b .resolved :: (ms.map Moment.event ++ p.events) := by
      show .status b .resolved :: (index b bean exports p).history.map Moment.event = _
      rw [hhistory, List.map_append]
      rfl
    rw [hevents, List.mem_cons, List.mem_append]
    refine or_congr_right (or_iff_right fun hin => ?_)
    obtain ⟨m, hm, rfl⟩ := List.mem_map.mp hin
    exact (hms m hm).1.not_isDecision he
  discard p b hb hp := by
    have hlt : b < p.registry.marks.length := Registry.lt_length_of_status_eq hb (by decide)
    refine (hp.set (b := b) (s := .deleted) (by rw [hb]; rfl) (by rw [hb]; decide) nofun
      (length_discard ..) (status_discard_self b p plan hlt)
      (fun c hc => status_discard_of_ne b c p plan hc) fun e _ => List.mem_cons).note id

end Plan

/-! ### Lookups -/

/-- The events tell the decisions, and did so whenever a lookup was answered. -/
structure Progress.Told (n : Nat) (p : Progress) : Prop where
  current : p.registry.Told n p.events
  lookups : Throughout (fun m ms => m.event.IsLookup → m.registry.Told n (ms.map Moment.event))
    p.history

namespace Plan

theorem persists_told_lookups (plan : Plan) : plan.Persists (Progress.Told plan.beans.length) where
  note p e he hp := ⟨(persists_told plan).note p e he hp.current, fun _ => hp.current, hp.lookups⟩
  begin p b hb hp := ⟨(persists_told plan).begin p b hb hp.current, nofun, hp.lookups⟩
  settle p b bean exports hbean hb he hp := by
    refine ⟨(persists_told plan).settle p b bean exports hbean hb he hp.current, nofun, ?_⟩
    obtain ⟨-, ms, hhistory, hms⟩ := index_spec b bean exports p
    show Throughout _ (index b bean exports p).history
    rw [hhistory]
    refine hp.lookups.append fun m hm _ hl => ?_
    have hi := (hms m hm).1
    cases hme : m.event <;> rw [hme] at hi hl <;> first | exact hi.elim | exact hl.elim
  discard p b hb hp := ⟨(persists_told plan).discard p b hb hp.current, nofun, nofun, hp.lookups⟩

end Plan
end Inversion
