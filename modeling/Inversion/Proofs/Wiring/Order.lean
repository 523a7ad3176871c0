/-
# The order of wiring

As long as no bean is abandoned, the path of the assembly is what is really under
way, so that each edge is recorded for the bean that received the other. Then the
beans are wired in an order in which everyone comes behind those that it received
(`Ordered`), and the edges have no cycle.

An abandoned bean upsets this, as it stays on the path. But it is abandoned for
good, so a run that ends with every bean wired has never abandoned one
(`Reaches.ordered`).
-/
import Inversion.Proofs.Before
import Inversion.Proofs.Wiring.Lifecycle

namespace Inversion

open Relation

/-! ### Completed beans -/

def Event.completed? : Event → Option Nat
  | wired b => some b
  | _ => none

/-- The beans that a history tells of as wired, the latest first. -/
def completed (es : List Event) : List Nat :=
  es.filterMap Event.completed?

theorem completed_append_of_plain {es fs : List Event} (h : ∀ e ∈ es, e.IsPlain) :
    completed (es ++ fs) = completed fs := by
  unfold completed
  rw [List.filterMap_append, List.filterMap_eq_nil_iff.mpr, List.nil_append]
  intro e he
  have := h e he
  cases e <;> first | rfl | exact this.elim

/-- Whether a bean has a destroyer. -/
def destroys (beans : List Bean) (b : Nat) : Bool :=
  (beans[b]?).any (·.destroy.isSome)

/-- The path is what is under way, and the beans are wired behind those that they
received. -/
structure Ordered (plan : Plan) (s : Scene) : Prop where
  stack : s.2.stack = creations s.1
  creating : ∀ b, s.2.registry.status b = .creating → b ∈ creations s.1
  nodup : (completed s.2.events).Nodup
  wired : ∀ b, b ∈ completed s.2.events ↔ s.2.registry.status b = .wired
  edges : ∀ x y, (x, y) ∈ s.2.edges → s.2.registry.status x = .wired ∧
    (y ∈ creations s.1 ∨ [y, x].Sublist (completed s.2.events))
  received : ∀ x y, .received (.bean y) x ∈ s.2.events → (x, y) ∈ s.2.edges
  kept : s.2.destroyers.Nodup
  destroyers : ∀ b, b ∈ s.2.destroyers ↔ s.2.registry.status b = .wired ∧ destroys plan.beans b

section
variable {plan : Plan} {s t : Scene} {b : Nat} {us : List Activity} {a : Assembly}

/-- A step that tells nothing of receipts and ends leaves the order alone. -/
theorem Ordered.frame (h : Ordered plan s) (hr : t.2.registry = s.2.registry)
    (hstack : t.2.stack = s.2.stack) (hcreations : creations t.1 = creations s.1)
    (hedges : t.2.edges = s.2.edges) (hdestroyers : t.2.destroyers = s.2.destroyers)
    (es : List Event) (hplain : ∀ e ∈ es, e.IsPlain) (hevents : t.2.events = es ++ s.2.events) :
    Ordered plan t := by
  have hcompleted : completed t.2.events = completed s.2.events := by
    rw [hevents, completed_append_of_plain hplain]
  refine ⟨?_, ?_, ?_, ?_, ?_, ?_, ?_, ?_⟩
  · rw [hstack, hcreations, h.stack]
  · rw [hr, hcreations]
    exact h.creating
  · rw [hcompleted]
    exact h.nodup
  · rw [hcompleted, hr]
    exact h.wired
  · rw [hedges, hr, hcreations, hcompleted]
    exact h.edges
  · intro x y hxy
    rw [hevents] at hxy
    rw [hedges]
    rcases List.mem_append.mp hxy with hxy | hxy
    · exact (hplain _ hxy).elim
    · exact h.received x y hxy
  · rw [hdestroyers]
    exact h.kept
  · rw [hdestroyers, hr]
    exact h.destroyers

/-! ### Receipts -/

theorem Assembly.mem_edges_connect {e : Nat × Nat} : e ∈ (a.connect b).edges ↔
    e ∈ a.edges ∨ ∃ top rest, a.stack = top :: rest ∧ top ≠ b ∧ e = (b, top) := by
  unfold connect
  cases a.stack with
  | nil => simp
  | cons top rest =>
    by_cases h : top = b ∨ (b, top) ∈ a.edges
    · simp only [if_pos h]
      refine ⟨.inl, ?_⟩
      rintro (he | ⟨_, _, heq, hne, rfl⟩)
      · exact he
      · cases heq
        exact h.resolve_left hne
    · simp only [if_neg h, List.mem_append, List.mem_singleton]
      refine or_congr_right ⟨fun he => ⟨top, rest, rfl, fun ht => h (.inl ht), he⟩, ?_⟩
      rintro ⟨_, _, heq, -, he⟩
      cases heq
      exact he

@[simp] theorem Assembly.stack_connect : (a.connect b).stack = a.stack := by
  unfold connect
  split
  · rfl
  · split <;> rfl

@[simp] theorem Assembly.destroyers_connect : (a.connect b).destroyers = a.destroyers := by
  unfold connect
  split
  · rfl
  · split <;> rfl

theorem Ordered.connect (h : Ordered plan (us, a)) (hw : a.registry.status b = .wired) :
    Ordered plan (us, a.connect b) := by
  have hp : (a.connect b).progress = a.progress := Assembly.progress_connect
  have hr : (a.connect b).registry = a.registry := by rw [Assembly.registry, hp]
  have hevents : (a.connect b).events = a.events := by rw [Assembly.events, hp, Assembly.events]
  refine ⟨?_, ?_, ?_, ?_, ?_, ?_, ?_, ?_⟩
  · exact Assembly.stack_connect.trans h.stack
  · simpa only [hr] using h.creating
  · simpa only [hevents] using h.nodup
  · simpa only [hevents, hr] using h.wired
  · intro x y hxy
    simp only [hevents, hr]
    rcases Assembly.mem_edges_connect.mp hxy with hxy | ⟨top, rest, hstack, -, he⟩
    · exact h.edges x y hxy
    · cases he
      refine ⟨hw, .inl ?_⟩
      have := h.stack
      rw [show (us, a).2.stack = y :: rest from hstack] at this
      rw [← this]
      exact List.mem_cons_self
  · intro x y hxy
    rw [show (us, a.connect b).2.events = a.events from hevents] at hxy
    exact Assembly.mem_edges_connect.mpr (.inl (h.received x y hxy))
  · simpa only [Assembly.destroyers_connect] using h.kept
  · simpa only [Assembly.destroyers_connect, hr] using h.destroyers

theorem Ordered.receive {u : Activity} {asker : Asker} (h : Ordered plan (u :: us, a))
    (hl : Life plan (u :: us, a)) (hu : u.asker? = some asker) (hw : a.registry.status b = .wired) :
    Ordered plan (u :: us, (a.connect b).note (.received asker b)) := by
  have hc := h.connect hw
  refine ⟨hc.stack, hc.creating, hc.nodup, hc.wired, hc.edges, ?_, hc.kept, hc.destroyers⟩
  intro x y hxy
  rcases List.mem_cons.mp hxy with hxy | hxy
  · cases hxy
    -- the one who asks is the innermost creation, so the edge is recorded for it
    match u, hu with
    | .creation _ .gathering, rfl =>
      refine Assembly.mem_edges_connect.mpr (.inr ⟨y, creations us, h.stack, ?_, rfl⟩)
      rintro rfl
      have hcreating : a.registry.status y = .creating := hl.creating List.mem_cons_self
      rw [hw] at hcreating
      cases hcreating
  · exact hc.received x y hxy

/-! ### Creations -/

theorem Ordered.begin (h : Ordered plan (us, a)) (hr : a.registry.status b = .resolved) :
    Ordered plan (.creation b .gathering :: us, a.begin b) := by
  have hstatus : ∀ c, (a.begin b).registry.status c = .wired ↔ a.registry.status c = .wired := by
    intro c
    show (a.registry.setStatus b .creating).status c = .wired ↔ _
    rw [Registry.status_setStatus]
    split
    · rename_i hc
      rw [hc.1, hr]
      simp
    · rfl
  refine ⟨congrArg (b :: ·) h.stack, fun c hc => ?_, h.nodup, fun c => ?_, fun x y hxy => ?_, ?_,
    h.kept, fun c => ?_⟩
  · by_cases hcb : c = b
    · rw [hcb]
      exact List.mem_cons_self
    · refine List.mem_cons_of_mem _ (h.creating c ?_)
      rwa [← Registry.status_setStatus_of_ne a.registry b c .creating hcb]
  · exact (h.wired c).trans (hstatus c).symm
  · obtain ⟨hx, hy⟩ := h.edges x y hxy
    exact ⟨(hstatus x).mpr hx, hy.imp_left (List.mem_cons_of_mem _)⟩
  · intro x y hxy
    rcases List.mem_cons.mp hxy with hxy | hxy
    · cases hxy
    · exact h.received x y hxy
  · exact (h.destroyers c).trans (and_congr_left' (hstatus c).symm)

theorem Assembly.mem_destroyers_keepDestroyer {c : Nat} : c ∈ (a.keepDestroyer plan b).destroyers ↔
    c ∈ a.destroyers ∨ c = b ∧ destroys plan.beans b := by
  unfold keepDestroyer destroys
  split
  · rename_i h
    simp [h.1]
  · rename_i h
    refine ⟨.inl, ?_⟩
    rintro (hc | ⟨rfl, hd⟩)
    · exact hc
    · by_contra hc
      exact h ⟨hd, hc⟩

theorem Assembly.nodup_destroyers_keepDestroyer (h : a.destroyers.Nodup) :
    (a.keepDestroyer plan b).destroyers.Nodup := by
  unfold keepDestroyer
  split
  · rename_i hb
    rw [List.nodup_append]
    refine ⟨h, by simp, fun x hx y hy => ?_⟩
    rw [List.mem_singleton.mp hy]
    exact fun he => hb.2 (he ▸ hx)
  · exact h

@[simp] theorem Assembly.stack_keepDestroyer : (a.keepDestroyer plan b).stack = a.stack := by
  unfold keepDestroyer
  split <;> rfl

@[simp] theorem Assembly.edges_keepDestroyer : (a.keepDestroyer plan b).edges = a.edges := by
  unfold keepDestroyer
  split <;> rfl

theorem Ordered.finish {stage : Stage} {i : Instance} (h : Ordered plan (.creation b stage :: us, a))
    (hl : Life plan (.creation b stage :: us, a)) : Ordered plan (us, a.finish plan b i) := by
  have hcreating : a.registry.status b = .creating := hl.creating List.mem_cons_self
  have hlt : b < a.registry.marks.length := Registry.lt_length_of_status_eq hcreating (by decide)
  have hself : (a.finish plan b i).registry.status b = .wired := Assembly.status_finish_self hlt
  have hother : ∀ c, c ≠ b → (a.finish plan b i).registry.status c = a.registry.status c :=
    fun c hc => Assembly.status_finish_of_ne hc
  have hwired : ∀ c, (a.finish plan b i).registry.status c = .wired ↔
      c = b ∨ a.registry.status c = .wired := by
    intro c
    by_cases hc : c = b
    · rw [hc]
      exact ⟨fun _ => .inl rfl, fun _ => hself⟩
    · rw [hother c hc]
      exact ⟨.inr, fun h => h.resolve_left hc⟩
  have hcompleted : completed (a.finish plan b i).events = b :: completed a.events := by
    rw [Assembly.events_finish]
    rfl
  have hnot : b ∉ completed a.events := by
    intro hb
    rw [(h.wired b).mp hb] at hcreating
    cases hcreating
  have hdestroyers : (a.finish plan b i).destroyers =
      (((a.hold b i).note (.creationEnded b none)).keepDestroyer plan b).destroyers := rfl
  refine ⟨?_, fun c hc => ?_, ?_, fun c => ?_, fun x y hxy => ?_, fun x y hxy => ?_, ?_, fun c => ?_⟩
  · show (((a.hold b i).note (.creationEnded b none)).keepDestroyer plan b).stack.tail = _
    rw [Assembly.stack_keepDestroyer]
    exact congrArg List.tail h.stack
  · have hcb : c ≠ b := by
      rintro rfl
      rw [show (us, a.finish plan c i).2.registry.status c = .wired from hself] at hc
      cases hc
    have hin := h.creating c (by rwa [← hother c hcb])
    exact (List.mem_cons.mp hin).resolve_left hcb
  · rw [hcompleted]
    exact List.nodup_cons.mpr ⟨hnot, h.nodup⟩
  · rw [hcompleted, List.mem_cons, hwired]
    exact or_congr_right (h.wired c)
  · rw [hcompleted, hwired]
    have hedge : (x, y) ∈ a.edges := by
      have hxy : (x, y) ∈ (((a.hold b i).note (.creationEnded b none)).keepDestroyer plan b).edges :=
        hxy
      rwa [Assembly.edges_keepDestroyer] at hxy
    obtain ⟨hx, hy⟩ := h.edges x y hedge
    refine ⟨.inr hx, ?_⟩
    rcases hy with hy | hy
    · rcases List.mem_cons.mp hy with rfl | hy
      · -- what the bean received is wired before it
        exact .inr ((List.singleton_sublist.mpr ((h.wired x).mpr hx)).cons_cons y)
      · exact .inl hy
    · exact .inr (hy.cons b)
  · rw [show (us, a.finish plan b i).2.events = _ from Assembly.events_finish] at hxy
    have hedge := h.received x y (by simpa using hxy)
    show (x, y) ∈ (((a.hold b i).note (.creationEnded b none)).keepDestroyer plan b).edges
    rwa [Assembly.edges_keepDestroyer]
  · rw [hdestroyers]
    exact Assembly.nodup_destroyers_keepDestroyer h.kept
  · rw [hdestroyers, Assembly.mem_destroyers_keepDestroyer, hwired]
    show c ∈ a.destroyers ∨ _ ↔ _
    rw [h.destroyers c]
    by_cases hc : c = b
    · rw [hc]
      simp
    · simp [hc]

/-! ### Runs -/

/-- A step keeps the order, or abandons a bean. -/
theorem Moves.ordered (hm : Moves plan s t) (hl : Life plan s) (h : Ordered plan s) :
    Ordered plan t ∨ ∃ b, Abandoned t b := by
  cases hm with
  | @note us a e quiet =>
    exact .inl (h.frame rfl rfl rfl rfl rfl [e] (by simpa using quiet.isPlain) rfl)
  | connect wired => exact .inl (h.connect wired)
  | receive asks wired => exact .inl (h.receive hl asks wired)
  | begin _ resolved => exact .inl (h.begin resolved)
  | take => exact .inl (h.frame rfl rfl rfl rfl rfl [] (by simp) (List.nil_append _).symm)
  | @build us a b bean recipe _ _ =>
    exact .inl (h.frame rfl rfl rfl rfl rfl
      [.instantiated b, .built b bean.type (a.progress.made + 1)] (by simp [Event.IsPlain]) rfl)
  | @buildFailed us a b bean recipe _ _ =>
    exact .inl (h.frame rfl rfl rfl rfl rfl [.buildFailed b bean.type]
      (by simp [Event.IsPlain]) rfl)
  | @openWindow us a b bean _ _ =>
    exact .inl (h.frame rfl rfl rfl rfl rfl [.instantiated b] (by simp [Event.IsPlain]) rfl)
  | @initialise us a b bean hook brief _ _ =>
    exact .inl (h.frame rfl rfl rfl rfl rfl [.initialised b bean.type brief]
      (by simp [Event.IsPlain]) rfl)
  | finish => exact .inl (h.finish hl)
  | @fail us a b stage cause =>
    exact .inr ⟨b, hl.creating List.mem_cons_self, (List.nodup_cons.mp hl.nodup).1⟩
  | configure => exact .inl (h.frame rfl rfl rfl rfl rfl [] (by simp) (List.nil_append _).symm)
  | leave => exact .inl (h.frame rfl rfl rfl rfl rfl [] (by simp) (List.nil_append _).symm)

/-- A run keeps the order, or ends with an abandoned bean. -/
theorem Reaches.ordered (h : Reaches plan s t) (hl : Life plan s) (hs : Ordered plan s) :
    Ordered plan t ∨ ∃ b, Abandoned t b := by
  have hboth : Life plan t ∧ (Ordered plan t ∨ ∃ b, Abandoned t b) :=
    h.keeps (P := fun t => Life plan t ∧ (Ordered plan t ∨ ∃ b, Abandoned t b))
      (fun u v hm ⟨hu, ho⟩ => by
        refine ⟨hm.life hu, ?_⟩
        rcases ho with ho | ⟨b, hb⟩
        · exact hm.ordered hu ho
        · exact .inr ⟨b, hm.abandoned hb⟩) ⟨hl, .inl hs⟩
  exact hboth.2

/-- The edges run along the order of wiring, once nothing is under way. -/
theorem Ordered.sublist (h : Ordered plan s) (hnone : creations s.1 = []) {x y : Nat}
    (hxy : TransGen (fun x y => (x, y) ∈ s.2.edges) x y) : [y, x].Sublist (completed s.2.events) := by
  refine sublist_of_transGen h.nodup (fun x y hxy => ?_) hxy
  rcases (h.edges x y hxy).2 with hy | hy
  · rw [hnone] at hy
    exact absurd hy List.not_mem_nil
  · exact hy

end
end Inversion
