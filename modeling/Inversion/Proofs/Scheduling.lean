/-
# The schedule of configurations

The configurations that take part are put into an order, their agenda, in which each stands
behind those that it runs after; there is none if they run after each other in a circle
(`agenda_ok`, `agenda_error`). A refresh whose beans are resolved judges all configurations
first, and then it goes along the agenda up to the first configuration that fails, before it
wires the beans (`refresh_fares`, `configurations_take_turns`).
-/
import Inversion.Proofs.Closing
import Inversion.Proofs.Wiring.Turns

namespace Inversion

open Relation

namespace Plan

variable {plan : Plan} {r : Registry} {configurations : List Configuration} {k l : Nat}

/-! ### The agenda -/

/-- The configuration with this place takes part. -/
def Admitted (plan : Plan) (r : Registry) (configurations : List Configuration) (k : Nat) : Prop :=
  ∃ a, configurations[k]? = some a ∧ plan.admission r a = .ok true

/-- Of two configurations that take part, the first runs after the second. -/
def Follows (plan : Plan) (r : Registry) (configurations : List Configuration) (k l : Nat) : Prop :=
  k ≠ l ∧ ∃ a b, configurations[k]? = some a ∧ configurations[l]? = some b ∧
    plan.admission r a = .ok true ∧ plan.admission r b = .ok true ∧ a.runsAfter b

/-- Every configuration can be judged. -/
def Judicable (plan : Plan) (r : Registry) (configurations : List Configuration) : Prop :=
  ∀ a ∈ configurations, ∃ v, plan.admission r a = .ok v

/-- Some configurations run after each other in a circle. -/
def Entangled (plan : Plan) (r : Registry) (configurations : List Configuration) : Prop :=
  ∃ k, TransGen (plan.Follows r configurations) k k

/-- The configurations that take part, with their places. -/
def taking (plan : Plan) (r : Registry) (configurations : List Configuration) :
    List (Configuration × Nat) :=
  configurations.zipIdx.filter fun x => plan.admission r x.1 = .ok true

/-- The configurations that take part in their order. The others have no say in it. -/
def agenda (plan : Plan) (r : Registry) (configurations : List Configuration) :
    Except SortError (List (Configuration × Nat)) :=
  Precedence.arrange (fun x => x.1.title) (fun x y => x.1.runsAfter y.1)
    (plan.taking r configurations)

theorem mem_taking {x : Configuration × Nat} : x ∈ plan.taking r configurations ↔
    configurations[x.2]? = some x.1 ∧ plan.admission r x.1 = .ok true := by
  unfold taking
  rw [List.mem_filter, List.mem_zipIdx_iff_getElem?, decide_eq_true_iff]

theorem nodup_taking : ((plan.taking r configurations).map Prod.snd).Nodup := by
  have hsub : ((plan.taking r configurations).map Prod.snd).Sublist
      (configurations.zipIdx.map Prod.snd) := (List.filter_sublist).map _
  rw [List.zipIdx_map_snd] at hsub
  exact hsub.nodup List.nodup_range'

/-- What needs another among the configurations that take part runs after it. -/
theorem follows_of_needs {i j : Nat}
    (h : Precedence.Needs (plan.taking r configurations).length
      (Precedence.placewise (fun x y => x.1.runsAfter y.1) (plan.taking r configurations)) i j) :
    plan.Follows r configurations (((plan.taking r configurations)[i]?.map Prod.snd).getD 0)
      (((plan.taking r configurations)[j]?.map Prod.snd).getD 0) := by
  obtain ⟨hne, x, y, hx, hy, hafter⟩ := Precedence.needs_placewise.mp h
  obtain ⟨hxc, hxt⟩ := mem_taking.mp (List.mem_of_getElem? hx)
  obtain ⟨hyc, hyt⟩ := mem_taking.mp (List.mem_of_getElem? hy)
  rw [hx, hy]
  refine ⟨fun he => hne ?_, x.1, y.1, hxc, hyc, hxt, hyt, hafter⟩
  have hplace : ((plan.taking r configurations).map Prod.snd)[j]? =
      ((plan.taking r configurations).map Prod.snd)[i]? := by
    rw [List.getElem?_map, List.getElem?_map, hx, hy]
    exact congrArg some he.symm
  refine (List.getElem?_inj ?_ nodup_taking).mp hplace
  rw [List.length_map]
  exact (List.getElem?_eq_some_iff.mp hy).1

/-- Only a circle is in the way of an agenda. -/
theorem agenda_error {e : SortError} (h : plan.agenda r configurations = .error e) :
    plan.Entangled r configurations := by
  obtain ⟨i, hi⟩ := Precedence.arrange_error h
  exact ⟨_, TransGen.lift (fun i => ((plan.taking r configurations)[i]?.map Prod.snd).getD 0)
    (fun _ _ hij => follows_of_needs hij) i i hi⟩

/-- On the agenda are all that take part, once each and behind those that they run after. -/
theorem agenda_ok {sorted : List (Configuration × Nat)}
    (h : plan.agenda r configurations = .ok sorted) :
    (∀ x ∈ sorted, configurations[x.2]? = some x.1) ∧ (sorted.map Prod.snd).Nodup ∧
      (∀ k, k ∈ sorted.map Prod.snd ↔ plan.Admitted r configurations k) ∧
      ∀ k l, plan.Follows r configurations k l → [l, k].Sublist (sorted.map Prod.snd) := by
  obtain ⟨hperm, hbehind⟩ := Precedence.arrange_ok h
  refine ⟨fun x hx => (mem_taking.mp (hperm.mem_iff.mp hx)).1,
    (hperm.map Prod.snd).nodup_iff.mpr nodup_taking, fun k => ?_, fun k l hkl => ?_⟩
  · rw [(hperm.map Prod.snd).mem_iff, List.mem_map]
    constructor
    · rintro ⟨x, hx, rfl⟩
      exact ⟨x.1, mem_taking.mp hx⟩
    · rintro ⟨a, ha⟩
      exact ⟨(a, k), mem_taking.mpr ha, rfl⟩
  · obtain ⟨hne, a, b, ha, hb, hat, hbt, hafter⟩ := hkl
    have hin : (a, k) ∈ plan.taking r configurations := mem_taking.mpr ⟨ha, hat⟩
    have hin' : (b, l) ∈ plan.taking r configurations := mem_taking.mpr ⟨hb, hbt⟩
    obtain ⟨i, hi⟩ := List.getElem?_of_mem hin
    obtain ⟨j, hj⟩ := List.getElem?_of_mem hin'
    have hij : j ≠ i := by
      rintro rfl
      rw [hi] at hj
      cases hj
      exact hne rfl
    exact (hbehind i j (a, k) (b, l) hi hj hij hafter).map Prod.snd

/-- There is no circle on an agenda. -/
theorem not_entangled_of_agenda {sorted : List (Configuration × Nat)}
    (h : plan.agenda r configurations = .ok sorted) : ¬ plan.Entangled r configurations := by
  obtain ⟨-, hnodup, -, hbehind⟩ := agenda_ok h
  exact fun ⟨k, hk⟩ => acyclic_of_sublist hnodup hbehind k hk

/-! ### Refreshes -/

/-- What a refresh does behind the configurations. -/
def wireUp (plan : Plan) : Refreshing (List Nat) := do
  (← get).progress.registry.active.forM plan.wireActive
  modify (·.note .beansWired)
  Refreshing.ofSorted ((← get).teardownOrder plan)

/-- How the configurations fare in a refresh, and what the refresh comes to. The beans have
been resolved as `r`, and the judgement of the configurations leaves `p` behind. -/
inductive Fares (plan : Plan) (r : Registry) (configurations : List Configuration) (p : Progress) :
    Except RefreshError (List Nat) → Assembly → Prop
  | unjudged {a : Configuration} {fault : Fault} {t : Assembly} (mem : a ∈ configurations)
    (failed : plan.admission r a = .error fault) (since : Judged p [] t) :
    Fares plan r configurations p (.error (.resolve (.condition a.title fault))) t
  | entangled {e : SortError} {t : Assembly} (judged : plan.Judicable r configurations)
    (circle : plan.agenda r configurations = .error e) (since : Judged p [] t) :
    Fares plan r configurations p (.error (.sort e)) t
  | stopped {sorted ran rest : List (Configuration × Nat)} {a : Configuration} {k : Nat}
    {s t : Assembly} {cause : RefreshError} (judged : plan.Judicable r configurations)
    (agreed : plan.agenda r configurations = .ok sorted) (split : sorted = ran ++ (a, k) :: rest)
    (before : Judged p (Turn.complete (ran.map Prod.snd)) s)
    (failed : outcome (plan.configure a k) s = (.error cause, t))
    (since : Judged p (Turn.complete (ran.map Prod.snd) ++ [.begun k]) t) :
    Fares plan r configurations p (.error cause) t
  | applied {sorted : List (Configuration × Nat)} {s : Assembly}
    (judged : plan.Judicable r configurations) (agreed : plan.agenda r configurations = .ok sorted)
    (before : Judged p (Turn.complete (sorted.map Prod.snd)) s)
    (since : Judged p (Turn.complete (sorted.map Prod.snd) ++ [.over])
      (outcome plan.wireUp (s.note .configurationsApplied)).2) :
    Fares plan r configurations p (outcome plan.wireUp (s.note .configurationsApplied)).1
      (outcome plan.wireUp (s.note .configurationsApplied)).2

theorem wireUp_keeps {p : Progress} {ts : List Turn} : Keeps (Judged p ts) plan.wireUp := by
  refine carries_get_bind fun a ha => Carries.bind (Carries.forM fun b _ => ?_) (fun _ => ?_) a ha
  · exact wireActive_keeps (endures_judged.wire_keeps _ b trivial) fun a _ ha => ha.plain id rfl
  · exact (carries_modify fun a ha => ha.plain id rfl).bind fun _ =>
      carries_get_bind fun t ht => Refreshing.ofSorted_keeps _ t ht

theorem refresh_fares {p q : Progress} (hresolved : outcome plan.resolveAll p = (.ok (), q))
    (hcalm : q.registry.Calm) (hnone : turns q.events = []) :
    After (plan.refresh configurations) (.start p) (Fares plan q.registry configurations
      (outcome (plan.admitted configurations.zipIdx) (q.note .beansResolved)).2) := by
  have hready : After plan.resolveAll p fun x t => x = .ok () ∧ t = q := by
    unfold After
    rw [hresolved]
    exact ⟨rfl, rfl⟩
  unfold refresh
  rw [after_bind, Refreshing.after_ofResolving]
  refine hready.mono fun x t ⟨hx, ht⟩ => ?_
  subst hx ht
  simp only [Except.mapError, continues_ok, after_bind, after_modify, Refreshing.after_ofResolving]
  have hadmitted := @admitted_foregone plan _ hcalm configurations.zipIdx (t.note .beansResolved) rfl
  have hleft : After (plan.admitted configurations.zipIdx) (t.note .beansResolved) fun _ p =>
      p = (outcome (plan.admitted configurations.zipIdx) (t.note .beansResolved)).2 := rfl
  refine (hadmitted.and hleft).mono fun x p hboth => ?_
  obtain ⟨⟨hp, hcases⟩, hleft⟩ := hboth
  rw [← hleft]
  have hjudged : Judged p [] (.start p) := hp.judged hcalm ((turns_cons_of_none rfl _).trans hnone)
  rcases hcases with ⟨y, hy, fault, hfault, he⟩ | ⟨hall, he⟩
  · rw [he]
    exact .unjudged (List.fst_mem_of_mem_zipIdx hy) hfault hjudged
  · have hjudicable : plan.Judicable t.registry configurations := fun a ha => by
      obtain ⟨i, hi⟩ := List.getElem?_of_mem ha
      exact hall (a, i) (List.mem_zipIdx_iff_getElem?.mpr hi)
    rw [he]
    simp only [continues_ok, after_bind, Refreshing.after_ofSorted]
    generalize hagenda : Precedence.arrange _ _ _ = arranged
    cases arranged with
    | error e => exact .entangled hjudicable hagenda hjudged
    | ok sorted =>
      simp only [Except.mapError, continues_ok, after_bind]
      refine (configureAll_judged sorted [] _ hjudged).mono fun x u hu => ?_
      rcases hu with ⟨hx, hu⟩ | ⟨ran, a, k, rest, s, cause, hsplit, hs, hfailed, hx, hu⟩
      · rw [hx]
        exact .applied hjudicable hagenda hu
          (wireUp_keeps.after (hu.note (e := .configurationsApplied) id))
      · rw [hx]
        exact .stopped hjudicable hagenda hsplit hs hfailed hu

/-- To wire beans is not to put anything into order. So only an order of the destroyers can
be in the way then. -/
theorem wireUp_sorts (a : Assembly) : After plan.wireUp a fun x t =>
    ∀ e, x = .error (.sort e) → .beansWired ∈ t.events := by
  have hwired : Confines (fun _ : Assembly => True) (fun e => ∀ cause, e ≠ .sort cause)
      (a.progress.registry.active.forM plan.wireActive) :=
    Confines.forM fun b _ s _ => by
      rw [after_wireActive]
      refine After.mono (Q := fun _ _ => True) trivial fun x t _ => ?_
      cases x with
      | ok _ => exact ⟨trivial, nofun⟩
      | error cause =>
        refine ⟨trivial, fun e he => ?_⟩
        cases he
        exact nofun
  unfold wireUp
  rw [after_bind, after_get, continues_ok, after_bind]
  refine (hwired a trivial).mono fun x t ⟨_, hx⟩ => ?_
  cases x with
  | error cause =>
    intro e he
    cases he
    exact absurd rfl (hx _ rfl e)
  | ok _ =>
    simp only [continues_ok, after_bind, after_modify, after_get, Refreshing.after_ofSorted]
    exact fun _ _ => List.mem_cons_self

/-! ### Fairness -/

/-- No configuration has a second turn, only those that take part have one, and when a turn
begins all that the configuration runs after has had its turn. -/
structure Fair (plan : Plan) (r : Registry) (configurations : List Configuration)
    (ts : List Turn) : Prop where
  once : ts.Nodup
  admitted : ∀ k, .begun k ∈ ts → plan.Admitted r configurations k
  inOrder : ∀ us k vs, ts = us ++ .begun k :: vs →
    ∀ l, plan.Follows r configurations k l → .ended l ∈ us

/-- What has been fair from the start was fair at any time. -/
theorem Fair.earlier {ts us : List Turn} (h : plan.Fair r configurations ts) (hus : us <+: ts) :
    plan.Fair r configurations us where
  once := hus.sublist.nodup h.once
  admitted k hk := h.admitted k (hus.subset hk)
  inOrder ws k vs hsplit l hkl := by
    obtain ⟨rest, rfl⟩ := hus
    refine h.inOrder ws k (vs ++ rest) ?_ l hkl
    rw [hsplit, List.append_assoc, List.cons_append]

/-- To go along an agenda is fair. -/
theorem fair_of_agenda {sorted : List (Configuration × Nat)}
    (h : plan.agenda r configurations = .ok sorted) :
    plan.Fair r configurations (Turn.complete (sorted.map Prod.snd) ++ [.over]) := by
  obtain ⟨-, hnodup, hmem, hbehind⟩ := agenda_ok h
  refine ⟨?_, fun k hk => ?_, fun us k vs hsplit l hkl => ?_⟩
  · rw [List.nodup_append]
    refine ⟨Turn.nodup_complete hnodup, List.nodup_singleton _, fun a ha b hb => ?_⟩
    rw [List.mem_singleton.mp hb]
    rintro rfl
    exact Turn.over_not_mem ha
  · obtain ⟨us, vs, hsplit⟩ := List.append_of_mem hk
    obtain ⟨ran, rest, hran, -⟩ := Turn.of_begun (by simp) hsplit
    exact (hmem k).mp (by rw [hran]; simp)
  · obtain ⟨ran, rest, hran, rfl⟩ := Turn.of_begun (by simp) hsplit
    have hsub := hbehind k l hkl
    rw [hran] at hnodup hsub
    exact Turn.ended_mem (mem_of_sublist_pair hnodup hsub)

/-- Where the configurations have no agenda, or cannot be judged, none has a turn. -/
theorem Fares.unfair {p : Progress} {x : Except RefreshError (List Nat)} {t : Assembly}
    (h : Fares plan r configurations p x t)
    (hnone : ¬ plan.Judicable r configurations ∨ plan.Entangled r configurations) :
    Judged p [] t := by
  cases h with
  | unjudged mem failed since => exact since
  | entangled judged circle since => exact since
  | stopped judged agreed =>
    exact absurd hnone (not_or.mpr ⟨not_not.mpr judged, not_entangled_of_agenda agreed⟩)
  | applied judged agreed =>
    exact absurd hnone (not_or.mpr ⟨not_not.mpr judged, not_entangled_of_agenda agreed⟩)

/-- Otherwise the refresh goes along the agenda, to its end or up to a failure. -/
theorem Fares.along {p : Progress} {x : Except RefreshError (List Nat)} {t : Assembly}
    (h : Fares plan r configurations p x t) (hjudged : plan.Judicable r configurations)
    (hnone : ¬ plan.Entangled r configurations) :
    ∃ sorted, plan.agenda r configurations = .ok sorted ∧
      ((turns t.events = Turn.complete (sorted.map Prod.snd) ++ [.over] ∧
          ∃ s : Assembly, turns s.events = Turn.complete (sorted.map Prod.snd) ∧
            (x, t) = outcome plan.wireUp (s.note .configurationsApplied)) ∨
        ∃ ran a k rest cause, ∃ s : Assembly, sorted = ran ++ (a, k) :: rest ∧
          turns s.events = Turn.complete (ran.map Prod.snd) ∧
          outcome (plan.configure a k) s = (.error cause, t) ∧ x = .error cause ∧
          turns t.events = Turn.complete (ran.map Prod.snd) ++ [.begun k]) := by
  cases h with
  | unjudged mem failed since =>
    obtain ⟨v, hv⟩ := hjudged _ mem
    rw [failed] at hv
    cases hv
  | entangled judged circle since => exact absurd (agenda_error circle) hnone
  | stopped judged agreed split before failed since =>
    exact ⟨_, agreed, .inr ⟨_, _, _, _, _, _, split, before.turns, failed, rfl, since.turns⟩⟩
  | applied judged agreed before since =>
    exact ⟨_, agreed, .inl ⟨since.turns, _, before.turns, rfl⟩⟩

/-- Turns are fair, however the refresh ends. -/
theorem Fares.fair {p : Progress} {x : Except RefreshError (List Nat)} {t : Assembly}
    (h : Fares plan r configurations p x t) :
    ∃ ts, Judged p ts t ∧ plan.Fair r configurations ts := by
  have hnil : plan.Fair r configurations [] := ⟨List.nodup_nil, nofun, fun us k vs hsplit => by
    cases us <;> cases hsplit⟩
  cases h with
  | unjudged mem failed since => exact ⟨[], since, hnil⟩
  | entangled judged circle since => exact ⟨[], since, hnil⟩
  | @stopped sorted ran rest a k s t cause judged agreed split before failed since =>
    refine ⟨_, since, (fair_of_agenda agreed).earlier ⟨.ended k ::
      Turn.complete (rest.map Prod.snd) ++ [.over], ?_⟩⟩
    rw [split, List.map_append, List.map_cons, Turn.complete_append, Turn.complete_cons]
    simp
  | applied judged agreed before since => exact ⟨_, since, fair_of_agenda agreed⟩

theorem configure_sorts (a : Configuration) (k : Nat) (s : Assembly) :
    After (plan.configure a k) s fun x _ => ∀ e, x ≠ .error (.sort e) := by
  have hconfined : Confines (fun _ : Assembly => True) (fun e => ∀ cause, e ≠ .sort cause)
      (plan.configure a k) := by
    have hgathered : Confines (fun _ : Assembly => True) (fun _ => True)
        (a.args.mapM (plan.gather plan.wireBean (.configuration k))) :=
      fun _ _ => ⟨trivial, fun _ _ => trivial⟩
    unfold configure
    refine (confines_modify fun _ _ => trivial).bind fun _ => ?_
    refine (hgathered.adapt fun cause _ e he => by cases he).bind fun values => ?_
    refine (confines_modify fun _ _ => trivial).bind fun _ => ?_
    cases a.failure with
    | some cause => exact confines_throw nofun
    | none => exact confines_modify fun _ _ => trivial
  exact (hconfined s trivial).mono fun x t hx e he => hx.2 _ he e rfl

/-- What cannot be put into order are configurations that run after each other in a circle. -/
theorem Fares.sort_iff {p : Progress} {x : Except RefreshError (List Nat)} {t : Assembly}
    (h : Fares plan r configurations p x t) (hends : plan.Ends x t) :
    (∃ e, x = .error (.sort e)) ↔
      plan.Judicable r configurations ∧ plan.Entangled r configurations := by
  cases h with
  | unjudged mem failed since =>
    refine iff_of_false (by rintro ⟨e, he⟩; cases he) fun hjudged => ?_
    obtain ⟨v, hv⟩ := hjudged.1 _ mem
    rw [failed] at hv
    cases hv
  | @entangled e t judged circle since =>
    exact iff_of_true ⟨e, rfl⟩ ⟨judged, agenda_error circle⟩
  | stopped judged agreed split before failed since =>
    refine iff_of_false ?_ fun hjudged => not_entangled_of_agenda agreed hjudged.2
    rintro ⟨e, he⟩
    cases he
    exact (configure_sorts _ _ _).of_outcome failed e rfl
  | @applied sorted s judged agreed before since =>
    refine iff_of_false ?_ fun hjudged => not_entangled_of_agenda agreed hjudged.2
    rintro ⟨e, he⟩
    have hwired := wireUp_sorts (s.note .configurationsApplied) e he
    rcases hends.finished with ⟨ds, es, hds, -⟩ | ⟨-, -, hearly⟩
    · rw [he] at hds
      cases hds
    · exact hearly _ hwired trivial

end Plan

/-! ### Containers -/

theorem Event.IsAfterword.turn?_eq {e : Event} (h : e.IsAfterword) : e.turn? = none := by
  cases e <;> first | rfl | exact h.elim

theorem Event.IsAfterword.not_isJudgement {e : Event} (h : e.IsAfterword) : ¬ e.IsJudgement := by
  cases e <;> first | exact id | exact h.elim

theorem turns_of_afterwords {es : List Event} (h : ∀ e ∈ es, e.IsAfterword) : turns es = [] := by
  unfold turns
  rw [List.filterMap_eq_nil_iff.mpr fun e he => (h e he).turn?_eq, List.reverse_nil]

theorem turns_append_of_afterwords {es fs : List Event} (h : ∀ e ∈ es, e.IsAfterword) :
    turns (es ++ fs) = turns fs := by
  have hes : turns es = [] := turns_of_afterwords h
  unfold turns at hes ⊢
  rw [List.filterMap_append, List.reverse_append, hes, List.append_nil]

namespace Container

variable {c : Container}

/-- When the beans have been resolved, no configuration has had its turn. -/
theorem Frozen.turns_resolved {plan : Plan} {p q : Progress} {x : Except ResolveError Unit}
    (h : Frozen plan p) (hresolved : outcome plan.resolveAll p = (x, q)) : turns q.events = [] := by
  have hnew : turns p.events = [] := turns_of_afterwords fun e he => (h.aside e he).isAfterword
  have hpersists : plan.Persists fun p => turns p.events = [] :=
    Plan.persists_events (P := fun es => turns es = []) fun e es he hes =>
      (turns_cons_of_none he.turn?_eq es).trans hes
  exact ((Plan.resolveAll_keeps hpersists).after hnew).of_outcome hresolved

theorem complete_sort_iff {e : SortError} :
    c.complete.1 = .ok (.error (.sort e)) ↔ c.course.1 = .error (.sort e) := by
  refine ⟨course_of_complete, fun h => ?_⟩
  unfold complete
  rw [show (c.plan.refresh c.configurations).run.run (.start c.progress) = c.course from rfl]
  revert h
  rcases c.course with ⟨_ | _, a⟩ <;> rintro ⟨⟩
  rfl

/-- A refresh notes how its course has ended, if at all. -/
theorem events_complete (c : Container) : ∃ es : List Event, (∀ e ∈ es, e.IsAfterword) ∧
    c.complete.2.events = es ++ c.course.2.events := by
  rcases complete_spec c with ⟨ds, -, hc⟩ | ⟨e, p, -, hp | hp, hc⟩ <;> rw [hc]
  · exact ⟨[.refreshed], by simp [Event.IsAfterword], rfl⟩
  · exact ⟨[], nofun, congrArg Progress.events hp⟩
  · exact ⟨[.refreshFailed e.message], by simp [Event.IsAfterword], congrArg Progress.events hp⟩

/-- Once the beans are frozen, no operation gives a configuration its turn. -/
theorem performAll_turns (hn : c.phase ≠ .unrefreshed) (ops : List Operation) :
    turns (c.performAll ops).2.events = turns c.events := by
  have hkeeps := performAll_keeps (P := fun d => d.phase ≠ .unrefreshed ∧
    turns d.events = turns c.events) (fun d d' hu ⟨hd, ht⟩ => ?_) ops c ⟨hn, rfl⟩
  · exact hkeeps.2
  · cases hu with
    | nothing alike progress =>
      rw [alike.phase, events, progress]
      exact ⟨hd, ht⟩
    | noted alike e aside progress =>
      rw [alike.phase, events, progress]
      exact ⟨hd, (turns_cons_of_none aside.isAfterword.turn?_eq _).trans ht⟩
    | refused new _ _ => exact absurd new hd
    | refreshed new _ => exact absurd new hd
    | found refreshing sel =>
      have hpersists : d.plan.Persists fun p => turns p.events = turns c.events :=
        Plan.persists_events (P := fun es => turns es = turns c.events) fun e es he hes =>
          (turns_cons_of_none he.turn?_eq es).trans hes
      exact ⟨hd, (Plan.find_keeps hpersists sel).after ht⟩
    | closed refreshed =>
      refine ⟨by rwa [phase_close], ?_⟩
      exact close_keeps (P := fun p => turns p.events = turns c.events)
        (fun he hp => (turns_cons_of_none he.turn?_eq _).trans hp) refreshed ht

/-- A refresh whose beans are resolved judges all configurations before the first of them has
its turn, and their turns are fair. None has a turn if one cannot be judged, or if some of
those that take part run after each other in a circle; the latter, and nothing else, is an
error of ordering. Otherwise all that take part have their turns along the agenda and then
the beans are wired, or one fails, and this is the end of the refresh. -/
theorem configurations_take_turns (compositions : Compositions) (ops : List Operation) :
    let c := ((empty .standard compositions).performAll ops).2
    let f := c.freeze.2
    c.phase = .unrefreshed → c.freeze.1 = none →
    ∀ q, outcome f.plan.resolveAll f.progress = (.ok (), q) →
      let d := c.refresh.2
      let judged := (outcome (f.plan.admitted f.configurations.zipIdx) (q.note .beansResolved)).2
      let judicable := f.plan.Judicable q.registry f.configurations
      let entangled := f.plan.Entangled q.registry f.configurations
      (f.plan.Fair q.registry f.configurations (turns d.events) ∧
        ∀ ops', turns (d.performAll ops').2.events = turns d.events) ∧
      (∃ late, d.events = late ++ judged.events ∧ turns judged.events = [] ∧
        ∀ e ∈ late, ¬ e.IsJudgement) ∧
      ((∃ e, c.refresh.1 = .ok (.error (.sort e))) ↔ judicable ∧ entangled) ∧
      (¬ judicable ∨ entangled → turns d.events = []) ∧
      (judicable → ¬ entangled → ∃ sorted,
        f.plan.agenda q.registry f.configurations = .ok sorted ∧ (sorted.map Prod.snd).Nodup ∧
        (∀ k, k ∈ sorted.map Prod.snd ↔ f.plan.Admitted q.registry f.configurations k) ∧
        ((turns d.events = Turn.complete (sorted.map Prod.snd) ++ [.over] ∧
            ∃ s : Assembly, turns s.events = Turn.complete (sorted.map Prod.snd) ∧
              f.course = outcome f.plan.wireUp (s.note .configurationsApplied)) ∨
          ∃ ran a k rest cause, ∃ s t : Assembly, sorted = ran ++ (a, k) :: rest ∧
            turns s.events = Turn.complete (ran.map Prod.snd) ∧
            outcome (f.plan.configure a k) s = (.error cause, t) ∧ f.course = (.error cause, t) ∧
            turns d.events = Turn.complete (ran.map Prod.snd) ++ [.begun k])) := by
  intro c f hn hdistinct q hresolved d judged judicable entangled
  obtain ⟨hstd, hphase, hidle, hlength⟩ := (performAll_orderly compositions ops).freeze hn
  have hends : f.plan.Ends f.course.1 f.course.2 :=
    Plan.refresh_ends hstd f.configurations hidle hlength
  have hcalm : q.registry.Calm := (Plan.resolveAll_calm hlength).of_outcome hresolved rfl
  have hnone : turns q.events = [] :=
    ((performAll_lasts lasts_trivial .standard compositions ops).frozen hn).turns_resolved hresolved
  have hfares : f.plan.Fares q.registry f.configurations judged f.course.1 f.course.2 :=
    Plan.refresh_fares hresolved hcalm hnone
  have hrefresh : c.refresh = f.complete := refresh_of_distinct hn hdistinct
  obtain ⟨es, hes, hevents⟩ : ∃ es : List Event, (∀ e ∈ es, e.IsAfterword) ∧
      d.events = es ++ f.course.2.events := by
    show ∃ es : List Event, _ ∧ c.refresh.2.events = _
    rw [hrefresh]
    exact events_complete f
  have hturns : turns d.events = turns f.course.2.events := by
    rw [hevents, turns_append_of_afterwords hes]
  obtain ⟨ts, hjudged, hfair⟩ := hfares.fair
  refine ⟨⟨?_, fun ops' => performAll_turns ?_ ops'⟩, ?_, ?_, fun hno => ?_, fun hyes hno => ?_⟩
  · rwa [hturns, hjudged.turns]
  · show c.refresh.2.phase ≠ .unrefreshed
    rw [hrefresh]
    exact phase_complete (by rw [hphase]; decide)
  · obtain ⟨late, hlate, hnot⟩ := hjudged.late
    have hremarked : (q.note .beansResolved).Remarked judged :=
      (Plan.admitted_foregone hcalm f.configurations.zipIdx (q.note .beansResolved) rfl).1
    refine ⟨es ++ late, by rw [hevents, hlate, List.append_assoc], ?_, fun e he => ?_⟩
    · exact hremarked.turns.trans ((turns_cons_of_none rfl _).trans hnone)
    · exact (List.mem_append.mp he).elim (fun he => (hes e he).not_isJudgement) (hnot e)
  · rw [hrefresh]
    exact (exists_congr fun e => complete_sort_iff).trans (hfares.sort_iff hends)
  · exact hturns.trans (hfares.unfair hno).turns
  · obtain ⟨sorted, hagenda, hcases⟩ := hfares.along hyes hno
    obtain ⟨-, hnodup, hmem, -⟩ := Plan.agenda_ok hagenda
    refine ⟨sorted, hagenda, hnodup, hmem, ?_⟩
    rw [hturns]
    rcases hcases with happlied | ⟨ran, a, k, rest, cause, s, hsplit, hs, hfailed, hx, hk⟩
    · exact .inl happlied
    · exact .inr ⟨ran, a, k, rest, cause, s, f.course.2, hsplit, hs, hfailed, Prod.ext hx rfl, hk⟩

/-- Two configurations, the first of which runs after the last, and one that is left out. The last
has no name, and the hints mean it by its site. -/
def rota : List Operation :=
  [.configure ⟨.main 1, some "cache", [], [], ["src/main.rs:3:5"], [], "cache", none⟩,
    .configure ⟨.main 2, some "audit", [], ["src/main.rs:3:5"], ["cache"],
      [.property "audit" none false], "audit", none⟩,
    .configure ⟨.main 3, none, [], [], [], [], "store", none⟩]

theorem configurations_take_turns_of_rota :
    let c := ((empty .standard ⟨[]⟩).performAll rota).2
    c.phase = .unrefreshed ∧ c.freeze.1 = none ∧
      (∀ ops', turns (c.refresh.2.performAll ops').2.events =
        [.begun 2, .ended 2, .begun 0, .ended 0, .over]) ∧
      ¬ ∃ e, c.refresh.1 = .ok (.error (.sort e)) := by
  intro c
  have hn : c.phase = .unrefreshed := by decide +kernel
  have hdistinct : c.freeze.1 = none := by decide +kernel
  have hok : (outcome c.freeze.2.plan.resolveAll c.freeze.2.progress).1 = .ok () := by
    decide +kernel
  obtain ⟨⟨-, hlater⟩, -, hsort, -⟩ :=
    configurations_take_turns ⟨[]⟩ rota hn hdistinct _ (Prod.ext hok rfl)
  refine ⟨hn, hdistinct, fun ops' => (hlater ops').trans (by decide +kernel), fun herror => ?_⟩
  let f := c.freeze.2
  let r := (outcome f.plan.resolveAll f.progress).2.registry
  have hagenda : (f.plan.agenda r f.configurations).isOk := by decide +kernel
  cases hsorted : f.plan.agenda r f.configurations with
  | error e =>
    rw [hsorted] at hagenda
    cases hagenda
  | ok sorted => exact Plan.not_entangled_of_agenda hsorted (hsort.mp herror).2

end Container
end Inversion
