/-
# The turns of configurations

The configurations that take part are run one behind the other, and a history tells when
the turn of each begins and ends (`turns`). Whatever a configuration asks for while it has
its turn, no condition is evaluated and no other turn begins (`configure_judged`). So all of
them have their turns, or those up to the first that fails (`configureAll_judged`).
-/
import Inversion.Proofs.Lookup.Foregone
import Inversion.Proofs.Wiring.Machine
import Inversion.Proofs.Refresh

namespace Inversion

/-- The turn of a configuration begins, and ends when it has been applied. At last all turns
are over. -/
inductive Turn where
  | begun (c : Nat)
  | ended (c : Nat)
  | over
  deriving DecidableEq, Repr

/-- The complete turns of configurations. -/
def Turn.complete (cs : List Nat) : List Turn :=
  cs.flatMap fun c => [.begun c, .ended c]

namespace Turn

variable {c k : Nat} {cs : List Nat}

theorem complete_cons : complete (c :: cs) = .begun c :: .ended c :: complete cs :=
  rfl

theorem complete_append (cs ds : List Nat) : complete (cs ++ ds) = complete cs ++ complete ds :=
  List.flatMap_append

theorem ended_mem (h : c ∈ cs) : .ended c ∈ complete cs :=
  List.mem_flatMap.mpr ⟨c, h, by simp⟩

theorem over_not_mem : .over ∉ complete cs := by
  simp [complete]

theorem nodup_complete (h : cs.Nodup) : (complete cs).Nodup := by
  induction cs with
  | nil => exact List.nodup_nil
  | cons c cs ih =>
    obtain ⟨hc, hcs⟩ := List.nodup_cons.mp h
    have hbegun : .begun c ∉ complete cs := by simp [complete, hc]
    have hended : .ended c ∉ complete cs := by simp [complete, hc]
    simp [complete_cons, hbegun, hended, ih hcs]

/-- When a turn begins, those before it are complete. -/
theorem of_begun {tail vs : List Turn} (htail : .begun k ∉ tail) :
    ∀ {cs : List Nat} {us : List Turn}, complete cs ++ tail = us ++ .begun k :: vs →
      ∃ ran rest, cs = ran ++ k :: rest ∧ us = complete ran
  | [], us, h => by
    have hin : .begun k ∈ complete [] ++ tail := by
      rw [h]
      exact List.mem_append_right us List.mem_cons_self
    exact absurd hin htail
  | c :: cs, [], h => by
    cases h
    exact ⟨[], cs, rfl, rfl⟩
  | c :: cs, [_], h => by
    cases h
  | c :: cs, x :: y :: us, h => by
    rw [complete_cons] at h
    simp only [List.cons_append, List.cons.injEq] at h
    obtain ⟨rfl, rfl, h⟩ := h
    obtain ⟨ran, rest, rfl, rfl⟩ := of_begun htail h
    exact ⟨c :: ran, rest, rfl, rfl⟩

end Turn

namespace Event

def turn? : Event → Option Turn
  | configurationStarted c => some (.begun c)
  | configurationApplied c _ => some (.ended c)
  | configurationsApplied => some .over
  | _ => none

/-- What the evaluation of conditions tells of itself. -/
def IsJudgement : Event → Prop
  | test _ => True
  | configurationSkipped _ _ => True
  | _ => False

variable {e : Event}

theorem IsOfResolution.turn?_eq (h : e.IsOfResolution) : e.turn? = none := by
  cases e <;> first | rfl | exact h.elim

theorem FollowsResolution.turn?_eq (h : e.FollowsResolution) : e.turn? = none := by
  cases e <;> first | rfl | exact h.elim

theorem FollowsResolution.not_isJudgement (h : e.FollowsResolution) : ¬ e.IsJudgement := by
  cases e <;> first | exact id | exact h.elim

end Event

/-- The turns that a history tells of, the first first. -/
def turns (es : List Event) : List Turn :=
  (es.filterMap Event.turn?).reverse

theorem turns_cons (e : Event) (es : List Event) : turns (e :: es) = turns es ++ e.turn?.toList := by
  unfold turns
  rw [List.filterMap_cons]
  cases e.turn? <;> simp

theorem turns_cons_of_none {e : Event} (he : e.turn? = none) (es : List Event) :
    turns (e :: es) = turns es := by
  rw [turns_cons, he, Option.toList_none, List.append_nil]

theorem Progress.Remarked.turns {p q : Progress} (h : p.Remarked q) :
    turns q.events = turns p.events := by
  induction h with
  | refl => rfl
  | note _ he ih => exact (turns_cons_of_none he.isOfResolution.turn?_eq _).trans ih

/-! ### Behind the judgement -/

/-- All configurations have been judged, with `p` behind it. Since then no condition has been
evaluated; and the turns so far are `ts`. -/
structure Judged (p : Progress) (ts : List Turn) (a : Assembly) : Prop where
  calm : a.registry.Calm
  turns : turns a.events = ts
  late : ∃ es, a.events = es ++ p.events ∧ ∀ e ∈ es, ¬ e.IsJudgement

theorem Progress.Remarked.judged {p q : Progress} (h : p.Remarked q) (hp : p.registry.Calm)
    (hnone : Inversion.turns p.events = []) : Judged q [] (.start q) where
  calm := by
    show q.registry.Calm
    rwa [h.registry]
  turns := h.turns.trans hnone
  late := ⟨[], rfl, nofun⟩

section
variable {p : Progress} {ts : List Turn} {a : Assembly} {e : Event}

theorem Judged.note (h : Judged p ts a) (he : ¬ e.IsJudgement) :
    Judged p (ts ++ e.turn?.toList) (a.note e) := by
  obtain ⟨es, hes, hlate⟩ := h.late
  refine ⟨h.calm, ?_, e :: es, congrArg (e :: ·) hes, List.forall_mem_cons.mpr ⟨he, hlate⟩⟩
  exact (turns_cons e a.events).trans (by rw [h.turns])

/-- What is no turn leaves the turns as they are. -/
theorem Judged.plain (h : Judged p ts a) (he : ¬ e.IsJudgement) (ht : e.turn? = none) :
    Judged p ts (a.note e) := by
  have hnoted := h.note he
  rwa [ht, Option.toList_none, List.append_nil] at hnoted

end

namespace Plan

variable {plan : Plan} {p : Progress} {ts : List Turn} {a : Assembly}

/-- No wiring evaluates a condition or gives a configuration its turn. -/
theorem endures_judged : plan.Endures (Judged p ts) fun _ => True := by
  let P (ms : List Moment) : Prop := turns (ms.map Moment.event) = ts ∧
    ∃ es, ms.map Moment.event = es ++ p.events ∧ ∀ e ∈ es, ¬ e.IsJudgement
  have hjudged : Judged p ts = fun a => a.registry.Calm ∧ P a.progress.history :=
    funext fun a => propext ⟨fun h => ⟨h.calm, h.turns, h.late⟩, fun h => ⟨h.1, h.2.1, h.2.2⟩⟩
  rw [hjudged]
  refine endures_history (P := P) fun m ms hm ⟨hts, es, hes, hlate⟩ => ?_
  refine ⟨(turns_cons_of_none hm.turn?_eq _).trans hts, m.event :: es, ?_, ?_⟩
  · exact congrArg (m.event :: ·) hes
  · exact List.forall_mem_cons.mpr ⟨hm.not_isJudgement, hlate⟩

/-! ### Turns -/

/-- A configuration has its turn, which does not end if it fails. -/
theorem configure_judged (h : Judged p ts a) (configuration : Configuration) (c : Nat) :
    After (plan.configure configuration c) a
      (Split (Judged p (ts ++ [.begun c, .ended c])) (Judged p (ts ++ [.begun c]))) := by
  have hgathers : plan.Gathers plan.wireBean plan.wireBean (.configuration c)
      (Judged p (ts ++ [.begun c])) fun _ => True :=
    endures_judged.gathers (fun b _ => (endures_judged.wire_keeps _ b trivial).agrees) _
  have hstarted : Judged p (ts ++ [.begun c]) (a.note (.configurationStarted c)) :=
    h.note (e := .configurationStarted c) id
  unfold configure
  rw [after_bind, after_modify, continues_ok, after_bind, after_adapt]
  refine ((gatherAll_agrees hgathers configuration.args).keeps.after hstarted).mono
    fun r t ht => ?_
  cases r with
  | error cause => exact ht
  | ok values =>
    simp only [Except.mapError, continues_ok, after_bind, after_modify]
    have hnoted := ht.plain (e := .noted (.configured configuration.label values)) id rfl
    cases configuration.failure with
    | some cause => exact hnoted
    | none =>
      have happlied := hnoted.note (e := .configurationApplied c configuration.title) id
      rw [List.append_assoc] at happlied
      exact happlied

/-- All configurations have their turns; or one fails, and those behind it have none. -/
theorem configureAll_judged : ∀ (cs : List (Configuration × Nat)) (ts : List Turn) (a : Assembly),
    Judged p ts a →
      After (cs.forM fun (configuration, c) => plan.configure configuration c) a fun x t =>
        (x = .ok () ∧ Judged p (ts ++ Turn.complete (cs.map Prod.snd)) t) ∨
          ∃ ran configuration c rest s cause, cs = ran ++ (configuration, c) :: rest ∧
            Judged p (ts ++ Turn.complete (ran.map Prod.snd)) s ∧
            outcome (plan.configure configuration c) s = (.error cause, t) ∧ x = .error cause ∧
            Judged p (ts ++ Turn.complete (ran.map Prod.snd) ++ [.begun c]) t
  | [], ts, _, h => .inl ⟨rfl, by rwa [List.map_nil, show Turn.complete [] = [] from rfl,
      List.append_nil]⟩
  | (configuration, c) :: cs, ts, a, h => by
    show After (plan.configure configuration c >>= fun _ => cs.forM _) a _
    rw [after_bind]
    unfold After
    rcases hc : outcome (plan.configure configuration c) a with ⟨x, s⟩
    have hturn := (configure_judged h configuration c).of_outcome hc
    cases x with
    | error cause =>
      have hnone : ts ++ Turn.complete [] = ts := List.append_nil ts
      refine .inr ⟨[], configuration, c, cs, a, cause, rfl, ?_, hc, rfl, ?_⟩
      · rwa [List.map_nil, hnone]
      · rwa [List.map_nil, hnone]
    | ok _ =>
      have hcons : ∀ ran : List (Configuration × Nat),
          ts ++ [.begun c, .ended c] ++ Turn.complete (ran.map Prod.snd) =
            ts ++ Turn.complete (((configuration, c) :: ran).map Prod.snd) :=
        fun ran => List.append_assoc ..
      refine (continues_ok _ _ _ s).mpr ((configureAll_judged cs _ s hturn).mono fun x t ht => ?_)
      rcases ht with ⟨hx, ht⟩ | ⟨ran, d, k, rest, u, cause, hcs, hu, hd, hx, ht⟩
      · exact .inl ⟨hx, by rwa [hcons] at ht⟩
      · refine .inr ⟨(configuration, c) :: ran, d, k, rest, u, cause, by rw [hcs]; rfl, ?_, hd, hx,
          ?_⟩
        · rwa [hcons] at hu
        · rwa [hcons] at ht

end Plan
end Inversion
