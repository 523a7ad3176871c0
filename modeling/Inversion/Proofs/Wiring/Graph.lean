/-
# The graph of what beans ask for

A bean asks for the beans that may serve the arguments of its constructor: an argument
that takes one bean for the bean that provides it, one that takes all for each of them.
`Buildable` says what a bean needs to be built: a single bean for each argument that
takes one, and that every bean it asks for can be built in turn. As there are finitely
many beans, all can be built if and only if each argument that takes one has exactly
one and no bean asks for itself, directly or through others (`buildable_iff`).
-/
import Mathlib.Data.Fintype.EquivFin
import Mathlib.Logic.Relation
import Inversion.Proofs.Lookup.Single

namespace Inversion

open Relation

namespace Arg

/-- Nothing can go wrong with the argument but that beans are missing or cannot be wired. -/
def isPlain : Arg → Bool
  | one _ | every _ | named _ _ | properties _ | token => true
  | _ => false

/-- Selects the beans that may serve the argument. -/
def selector? : Arg → Option Selector
  | one t | every t => some (.type t)
  | named t n => some (.typedName t n)
  | _ => none

/-- Whether the argument takes one bean. -/
def takesOne : Arg → Bool
  | one _ | named _ _ => true
  | _ => false

end Arg

/-- The arguments of the bean's constructor. -/
def Bean.args (bean : Bean) : List Arg :=
  match bean.source with
  | .constructor recipe => recipe.args
  | _ => []

namespace Plan

variable {plan : Plan} {r : Registry} {b c : Nat} {bean : Bean} {arg : Arg} {B B' : Nat → Prop}

/-- Bean `b` takes part, and bean `c` may serve one of its arguments. -/
def Asks (plan : Plan) (r : Registry) (b c : Nat) : Prop :=
  r.status b ≠ .deleted ∧ ∃ bean arg sel, plan.beans[b]? = some bean ∧ arg ∈ bean.args ∧
    arg.selector? = some sel ∧ plan.Provides r sel c

/-- If the argument takes one bean, exactly one may serve it. -/
def Determines (plan : Plan) (r : Registry) (arg : Arg) : Prop :=
  arg.takesOne → ∀ sel, arg.selector? = some sel → ∃ c, ∀ e, plan.Provides r sel e ↔ e = c

/-- Each argument that takes one bean has exactly one, and no bean asks for itself,
directly or through others. -/
structure WellFormed (plan : Plan) (r : Registry) : Prop where
  supplied : ∀ b bean, plan.beans[b]? = some bean → r.status b ≠ .deleted →
    ∀ arg ∈ bean.args, plan.Determines r arg
  acyclic : ∀ b, ¬ TransGen (plan.Asks r) b b

/-- What a bean needs to be built. -/
inductive Buildable (plan : Plan) (r : Registry) : Nat → Prop
  | intro {b : Nat}
    (supplied : ∀ bean, plan.beans[b]? = some bean → ∀ arg ∈ bean.args, plan.Determines r arg)
    (asked : ∀ c, plan.Asks r b c → Buildable plan r c) : Buildable plan r b

/-! ### Arguments -/

/-- The argument can be served, by beans with `B`. -/
structure Serves (plan : Plan) (r : Registry) (B : Nat → Prop) (arg : Arg) : Prop where
  determines : plan.Determines r arg
  all : ∀ sel, arg.selector? = some sel → ∀ c, plan.Provides r sel c → B c

theorem Buildable.of_serves (hbean : plan.beans[b]? = some bean)
    (h : ∀ arg ∈ bean.args, plan.Serves r (plan.Buildable r) arg) : plan.Buildable r b := by
  refine .intro (fun bean' hbean' arg harg => ?_) fun c hc => ?_
  · cases hbean.symm.trans hbean'
    exact (h arg harg).determines
  · obtain ⟨-, bean', arg, sel, hbean', harg, hsel, hprovides⟩ := hc
    cases hbean.symm.trans hbean'
    exact (h arg harg).all sel hsel c hprovides

theorem Buildable.serves (h : plan.Buildable r b) (hb : r.status b ≠ .deleted)
    (hbean : plan.beans[b]? = some bean) (harg : arg ∈ bean.args) :
    plan.Serves r (fun c => plan.Buildable r c ∧ plan.Asks r b c) arg := by
  obtain ⟨supplied, asked⟩ := h
  refine ⟨supplied bean hbean arg harg, fun sel hsel c hc => ?_⟩
  have hasks : plan.Asks r b c := ⟨hb, bean, arg, sel, hbean, harg, hsel, hc⟩
  exact ⟨asked c hasks, hasks⟩

/-- An argument that takes no bean needs none. -/
theorem Serves.of_none (h : arg.selector? = none) : plan.Serves r B arg := by
  constructor
  · intro _ sel hsel
    rw [h] at hsel
    cases hsel
  · intro sel hsel
    rw [h] at hsel
    cases hsel

theorem Serves.mono (h : plan.Serves r B arg) (hB : ∀ c, B c → B' c) : plan.Serves r B' arg :=
  ⟨h.determines, fun sel hsel c hc => hB c (h.all sel hsel c hc)⟩

/-! ### Cycles -/

theorem Asks.lt_length (h : plan.Asks r b c) (hr : r.marks.length = plan.beans.length) :
    b < plan.beans.length ∧ c < plan.beans.length := by
  obtain ⟨hb, bean, arg, sel, -, -, -, hc⟩ := h
  exact ⟨hr ▸ Registry.lt_length_of_status hb, hr ▸ Registry.lt_length_of_status hc.1⟩

/-- A bean that can be built does not ask for itself. -/
theorem Buildable.acyclic (h : plan.Buildable r b) : ¬ TransGen (plan.Asks r) b b := by
  induction h with
  | @intro b _ _ ih =>
    intro hbb
    -- the first bean on the way asks for itself as well
    obtain ⟨c, hbc, hcb⟩ := TransGen.head'_iff.mp hbb
    exact ih c hbc (TransGen.tail' hcb hbc)

/-- Without a cycle there is no endless chain of beans that ask. -/
theorem wellFounded_asks (hr : r.marks.length = plan.beans.length)
    (h : ∀ b, ¬ TransGen (plan.Asks r) b b) : WellFounded fun c b => plan.Asks r b c := by
  -- all beans that ask or are asked for are beans of the plan, which are finitely many
  let asks : Fin plan.beans.length → Fin plan.beans.length → Prop :=
    fun c b => TransGen (plan.Asks r) b c
  have htrans : IsTrans _ asks := ⟨fun _ _ _ hba hcb => TransGen.trans hcb hba⟩
  have hirrefl : Std.Irrefl asks := ⟨fun b => h b⟩
  have hwf : WellFounded asks := Finite.wellFounded_of_trans_of_irrefl asks
  have hacc : ∀ b : Fin plan.beans.length, Acc (fun c b => plan.Asks r b c) b.1 := by
    intro b
    induction b using hwf.induction with
    | _ b ih =>
      exact .intro _ fun c hbc => ih ⟨c, (hbc.lt_length hr).2⟩ (.single hbc)
  exact ⟨fun b => .intro b fun c hbc => hacc ⟨c, (hbc.lt_length hr).2⟩⟩

theorem buildable_iff (hr : r.marks.length = plan.beans.length) :
    (∀ b, r.status b ≠ .deleted → plan.Buildable r b) ↔ plan.WellFormed r := by
  constructor
  · intro h
    refine ⟨fun b bean hbean hb => ?_, fun b hbb => ?_⟩
    · obtain ⟨supplied, -⟩ := h b hb
      exact supplied bean hbean
    · obtain ⟨c, hbc, -⟩ := TransGen.head'_iff.mp hbb
      exact (h b hbc.1).acyclic hbb
  · intro h b hb
    induction b using (wellFounded_asks hr h.acyclic).induction with
    | _ b ih =>
      refine .intro (fun bean hbean => h.supplied b bean hbean hb) fun c hbc => ih c hbc ?_
      obtain ⟨-, _, _, _, -, -, -, hc⟩ := hbc
      exact hc.1

end Plan
end Inversion
