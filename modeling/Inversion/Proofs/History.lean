/-
# Histories

What is said of a moment together with all that came before it is settled when the
moment is noted, and stays true of the history from then on (`Throughout`). Resolutions keep
it if it is true of what they note.

An event may also start something that holds of every registry from there on (`Hence`). For
this to last it is enough that it is so when the event is noted, and that no change of the
registry ends it.
-/
import Inversion.Proofs.Resolution

namespace Inversion

/-- Every moment has the property, given the moments before it. -/
def Throughout (P : Moment → List Moment → Prop) : List Moment → Prop
  | [] => True
  | m :: ms => P m ms ∧ Throughout P ms

namespace Throughout

variable {P : Moment → List Moment → Prop} {m : Moment} {earlier : List Moment}

theorem moment : ∀ {later : List Moment}, Throughout P (later ++ m :: earlier) → P m earlier
  | [], h => h.1
  | _ :: _, h => Throughout.moment h.2

theorem append (h : Throughout P earlier) :
    ∀ {later : List Moment}, (∀ m ∈ later, ∀ ms, P m ms) → Throughout P (later ++ earlier)
  | [], _ => h
  | m :: _, hl =>
    ⟨hl m List.mem_cons_self _, append h fun m' hm' => hl m' (List.mem_cons_of_mem m hm')⟩

theorem of_forall {ms : List Moment} (h : ∀ m ∈ ms, ∀ ms', P m ms') : Throughout P ms := by
  have hms : Throughout P (ms ++ []) := append (show Throughout P [] from trivial) h
  rwa [List.append_nil] at hms

end Throughout

/-- Since an event with `E`, the registry has had `R`. -/
structure Hence (E : Event → Prop) (R : Registry → Prop) (p : Progress) : Prop where
  current : (∃ e ∈ p.events, E e) → R p.registry
  since : Throughout (fun m ms => (∃ e ∈ m.event :: ms.map Moment.event, E e) → R m.registry)
    p.history

namespace Hence

variable {E : Event → Prop} {R : Registry → Prop} {p : Progress}

theorem of_none (h : ∀ e ∈ p.events, ¬ E e) : Hence E R p := by
  have hnone : ∀ ms : List Moment, (∀ m ∈ ms, ¬ E m.event) → Throughout (fun m ms =>
      (∃ e ∈ m.event :: ms.map Moment.event, E e) → R m.registry) ms := by
    intro ms
    induction ms with
    | nil => exact fun _ => trivial
    | cons m ms ih =>
      refine fun hms => ⟨fun ⟨e, he, hE⟩ => ?_, ih fun m' hm' => hms m' (List.mem_cons_of_mem m hm')⟩
      obtain ⟨m', hm', rfl⟩ := List.mem_map.mp (show e ∈ (m :: ms).map Moment.event from he)
      exact absurd hE (hms m' hm')
  refine ⟨fun ⟨e, he, hE⟩ => absurd hE (h e he), hnone p.history fun m hm => ?_⟩
  exact h m.event (List.mem_map_of_mem hm)

theorem note (h : Hence E R p) {e : Event} (he : E e → R p.registry) : Hence E R (p.note e) := by
  have hcurrent : (∃ e' ∈ e :: p.events, E e') → R p.registry := by
    rintro ⟨e', hin, hE⟩
    rcases List.mem_cons.mp hin with rfl | hin
    · exact he hE
    · exact h.current ⟨e', hin, hE⟩
  exact ⟨hcurrent, hcurrent, h.since⟩

theorem update (h : Hence E R p) {r : Registry} (hr : R p.registry → R r) :
    Hence E R { p with registry := r } :=
  ⟨fun he => hr (h.current he), h.since⟩

/-- The registries since the event. -/
theorem of_moment (h : Hence E R p) {later earlier : List Moment} {m : Moment}
    (hp : p.history = later ++ m :: earlier) (hm : E m.event) {r : Registry}
    (hr : r = p.registry ∨ r = m.registry ∨ ∃ m' ∈ later, r = m'.registry) : R r := by
  have hsince := h.since
  rw [hp] at hsince
  rcases hr with rfl | rfl | ⟨m', hm', rfl⟩
  · refine h.current ⟨m.event, ?_, hm⟩
    rw [Progress.events, hp]
    simp
  · exact hsince.moment ⟨m.event, List.mem_cons_self, hm⟩
  · obtain ⟨after, before, rfl⟩ := List.append_of_mem hm'
    rw [List.append_assoc, List.cons_append] at hsince
    exact hsince.moment ⟨m.event, by simp, hm⟩

end Hence

theorem Plan.persists_throughout {plan : Plan} {P : Moment → List Moment → Prop}
    (h : ∀ m ms, m.event.IsOfResolution → P m ms) : plan.Persists fun p => Throughout P p.history :=
  persists_history fun m ms hm hms => ⟨h m ms hm, hms⟩

end Inversion
