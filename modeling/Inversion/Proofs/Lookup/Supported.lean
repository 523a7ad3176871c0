/-
# Statuses that bear each other out

A set of active beans is supported if each bean is in it just when its conditions hold with
all others of the set that match to be found. A lookup finds less than that if it passes over
beans that match, since they are being resolved: `passedOver` lists them, the one apart whose
conditions ask.

If all that a run passes over is deleted in the end, then what becomes of the beans is supported
(`Accounted.supports`). And if all that it passes over is outside of a supported set, then
the run comes to this set (`Accounted.eq_of_supports`): by induction along the history, the beans
that a lookup finds are those of the set.
-/
import Inversion.Proofs.Lookup.Asking

namespace Inversion
namespace Plan

/-- The beans that a lookup has passed over although they match, without the one that asks. -/
def overlooked (plan : Plan) (m : Moment) (earlier : List Moment) : List Nat :=
  match m.event with
  | .lookedUp sel away _ => away.filter fun c => plan.answersTo sel c ∧ asker away earlier ≠ some c
  | _ => []

/-- All beans that lookups have passed over. -/
def passedOver (plan : Plan) : List Moment → List Nat
  | [] => []
  | m :: earlier => plan.overlooked m earlier ++ passedOver plan earlier

/-- A lookup finds all active beans that match, without the one that asks. -/
def Full (plan : Plan) (active : Nat → Bool) (b : Nat) : Findings := fun sel found =>
  found = (List.range plan.beans.length).filter fun c => c ≠ b ∧ active c ∧ plan.answersTo sel c

/-- Each bean is active just when its conditions hold with all other active beans to be found. -/
def Supports (plan : Plan) (active : Nat → Bool) : Prop :=
  ∀ b bean, plan.beans[b]? = some bean →
    AllYield plan.backdrop (plan.Full active b) bean.conditions (active b)

variable {plan : Plan} {q : Progress} {active : Nat → Bool} {b : Nat} {later earlier : List Moment}

theorem full_unique (plan : Plan) (active : Nat → Bool) (b : Nat) : (plan.Full active b).Unique :=
  fun _ _ _ h h' => h.trans h'.symm

theorem mem_passedOver {m : Moment} {c : Nat} (hc : c ∈ plan.overlooked m earlier) :
    ∀ later : List Moment, c ∈ plan.passedOver (later ++ m :: earlier)
  | [] => List.mem_append_left _ hc
  | _ :: later => List.mem_append_right _ (mem_passedOver hc later)

/-- A lookup finds all others that are active, if those decided before it was answered are as they
should be and it has passed over no active bean. -/
theorem Accounted.asked_le_full (h : plan.Accounted q) (hq : q.history = later ++ earlier)
    (hresolved : ∀ c, .status c .resolved ∈ earlier.map Moment.event → active c)
    (hdeleted : ∀ c < plan.beans.length, .status c .deleted ∈ earlier.map Moment.event →
      active c = false)
    (hpassed : ∀ c ∈ plan.passedOver q.history, active c = false) :
    Asked b earlier ≤ plan.Full active b := by
  intro sel found hfound
  have hfinds := fun c => h.found_resolved hq (c := c) hfound
  obtain ⟨since, m, before, away, rfl, hm, hasker, hmoment, htold, hbefore⟩ := h.exists_answer hq hfound
  have hexact : found = _ := (hmoment sel away found hm).1
  have hb : b ∈ away := mem_of_asker hasker
  unfold Full
  rw [hexact]
  refine List.filter_congr fun c hc => decide_eq_decide.mpr ⟨fun ⟨haway, hnd, ha⟩ => ?_,
    fun ⟨hne, hactive, ha⟩ => ⟨fun haway => ?_, fun hd => ?_, ha⟩⟩
  · -- what is found has been resolved before
    have hcfound : c ∈ found := by
      rw [hexact, List.mem_filter, decide_eq_true_eq]
      exact ⟨hc, haway, hnd, ha⟩
    exact ⟨fun hcb => haway (hcb ▸ hb), hresolved c (hfinds c hcfound).1, ha⟩
  · -- what is being resolved and matches is passed over
    have hover : c ∈ plan.overlooked m before := by
      unfold overlooked
      rw [hm]
      refine List.mem_filter.mpr ⟨haway, decide_eq_true ⟨ha, fun hc => ?_⟩⟩
      exact hne (Option.some.inj (hc.symm.trans hasker))
    have hpast : active c = false := by
      refine hpassed c ?_
      rw [hq, ← List.append_assoc]
      exact mem_passedOver hover _
    rw [hactive] at hpast
    cases hpast
  · -- what is deleted has been deleted before
    have hlt : c < plan.beans.length := List.mem_range.mp hc
    have hpast : active c = false := hdeleted c hlt (hbefore _ ((htold.deleted c hlt).mpr hd))
    rw [hactive] at hpast
    cases hpast

namespace Accounted

/-- A bean is decided as its conditions come to with all others that are active. -/
theorem decides (h : plan.Accounted q) {bean : Bean} (hbean : plan.beans[b]? = some bean) {s : Status}
    (hs : s = .resolved ∨ s = .deleted) {m : Moment} (hq : q.history = later ++ m :: earlier)
    (hm : m.event = .status b s) (hfull : Asked b earlier ≤ plan.Full active b) :
    AllYield plan.backdrop (plan.Full active b) bean.conditions s.isSettled := by
  have hevaluated := h.evaluated
  rw [hq] at hevaluated
  have hmoment := hevaluated.moment b bean hbean
  rcases hs with rfl | rfl
  · exact allYield_mono hfull _ true (hmoment.1 hm)
  · exact allYield_mono hfull _ false (hmoment.2 hm)

/-- The status that a decided bean has been given last. -/
theorem exists_decision (h : plan.Accounted q) (hb : b < plan.beans.length) :
    ∃ s, (s = .resolved ∨ s = .deleted) ∧ .status b s ∈ q.events ∧
      s.isSettled = (q.registry.status b).isSettled := by
  rcases h.settled_or_deleted b with hs | hs
  · exact ⟨.resolved, .inl rfl, (h.told.current.settled b).mpr hs, hs.symm⟩
  · exact ⟨.deleted, .inr rfl, (h.told.current.deleted b hb).mpr hs, by rw [hs]⟩

/-- A run that passes over beans only that are deleted in the end leaves a supported set. -/
theorem supports (h : plan.Accounted q)
    (hpassed : ∀ c ∈ plan.passedOver q.history, q.registry.status c = .deleted) :
    plan.Supports fun b => (q.registry.status b).isSettled := by
  intro b bean hbean
  have hlt : b < plan.beans.length := (List.getElem?_eq_some_iff.mp hbean).1
  obtain ⟨s, hs, hin, hsettled⟩ := h.exists_decision hlt
  obtain ⟨m, hm, hevent⟩ := List.mem_map.mp hin
  obtain ⟨later, earlier, hq⟩ := List.append_of_mem hm
  have hsplit : q.history = (later ++ [m]) ++ earlier := by rw [hq, List.append_cons]
  have hsub : ∀ e ∈ earlier.map Moment.event, e ∈ q.events := by
    intro e he
    rw [Progress.events, hsplit, List.map_append]
    exact List.mem_append_right _ he
  have hfull : Asked b earlier ≤ plan.Full (fun b => (q.registry.status b).isSettled) b :=
    h.asked_le_full hsplit (fun c hc => (h.told.current.settled c).mp (hsub _ hc))
      (fun c hlt hc => by rw [(h.told.current.deleted c hlt).mp (hsub _ hc)]; rfl)
      fun c hc => by rw [hpassed c hc]; rfl
  have hyield := h.decides hbean hs hq hevent hfull
  rwa [hsettled] at hyield

/-- What is decided in a run that passes over no bean of a supported set is decided as the set
says. -/
theorem decided_of_supports (h : plan.Accounted q) (hs : plan.Supports active)
    (hpassed : ∀ c ∈ plan.passedOver q.history, active c = false) :
    ∀ later earlier, q.history = later ++ earlier → ∀ b < plan.beans.length, ∀ s,
      (s = .resolved ∨ s = .deleted) → .status b s ∈ earlier.map Moment.event →
        active b = s.isSettled
  | _, [], _ => fun _ _ _ _ hb => absurd hb List.not_mem_nil
  | later, m :: earlier, hq => by
    have hsplit : q.history = (later ++ [m]) ++ earlier := by rw [hq, List.append_cons]
    have ih := decided_of_supports h hs hpassed (later ++ [m]) earlier hsplit
    intro b hb s hstatus hin
    rcases List.mem_cons.mp hin with hm | hearlier
    · have hbean := List.getElem?_eq_getElem hb
      have hfull : Asked b earlier ≤ plan.Full active b := by
        refine h.asked_le_full hsplit (fun c hc => ?_)
          (fun c hlt hc => ih c hlt .deleted (.inr rfl) hc) hpassed
        obtain ⟨bean, hbean⟩ := h.exists_bean hsplit hc
        exact ih c (List.getElem?_eq_some_iff.mp hbean).1 .resolved (.inl rfl) hc
      exact allYield_unique (full_unique plan active b) _ _ _ (hs b _ hbean)
        (h.decides hbean hstatus hq hm.symm hfull)
    · exact ih b hb s hstatus hearlier

/-- A run that passes over no bean of a supported set comes to this set. -/
theorem eq_of_supports (h : plan.Accounted q) (hs : plan.Supports active)
    (hpassed : ∀ c ∈ plan.passedOver q.history, active c = false) (hb : b < plan.beans.length) :
    (q.registry.status b).isSettled = active b := by
  obtain ⟨s, hstatus, hin, hsettled⟩ := h.exists_decision hb
  exact hsettled.symm.trans
    (h.decided_of_supports hs hpassed [] q.history rfl b hb s hstatus hin).symm

end Accounted
end Plan
end Inversion
